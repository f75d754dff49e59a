/-
The course of a batch whose out-of-order entries are all shadow 0's
(`Confined`): the invariant between two turns and the end it leads to.

# The shape of the argument

A shadow that allocates nothing has an empty table, so every lookup of
its entries fails and all it does is queue them (`foldl_passOn`). A
merge of two such shadows joins their queues, and sub-range follows
sub-range (`subRange_append`), so the queue that reaches shadow 0 is
the rest of the batch in order, less the entries that do nothing. In
which order the other threads take their turns does not show: none of
them touches the runtime or the global table.

`OnCourse` says this per shadow and phase. Turns of the other shadows
go through `OnCourse.pass`, those of shadow 0 through
`OnCourse.leftmost`.
-/
import Mathlib.Algebra.Group.Nat.Defs
import Mathlib.Data.List.Range
import Carmot.Texas.Proofs.ShadowTables

namespace Carmot.Texas

open Carmot.Lib (SortedMap)

-- ============================================================ sub-ranges

section SubRange

variable {numShadows numEntries tid : Nat}

/-- The slots of a shadow and of all shadows to its right. -/
def fromShadow (numShadows numEntries tid : Nat) : List Nat :=
  List.range' (tid * (numEntries / numShadows))
    (numEntries - tid * (numEntries / numShadows))

/-- The size of a sub-range, when every shadow gets an entry. -/
theorem subRange_eq (hpos : 0 < numShadows) (hle : numShadows ≤ numEntries) (tid : Nat) :
    subRange numShadows numEntries tid
      = List.range' (tid * (numEntries / numShadows))
          (numEntries / numShadows
            + if tid + 1 = numShadows then numEntries % numShadows else 0) := by
  have hsub : 0 < numEntries / numShadows := Nat.div_pos hle hpos
  unfold subRange leftBound rightBound
  simp only [if_neg (Nat.ne_of_gt hsub), Nat.succ_mul]
  congr 1
  split
  · omega
  · omega

theorem mul_div_le (htid : tid < numShadows) :
    (tid + 1) * (numEntries / numShadows) ≤ numEntries :=
  Nat.le_trans (Nat.mul_le_mul_right _ htid) (Nat.mul_div_le numEntries numShadows)

/-- The rightmost shadow takes all that is left. -/
theorem subRange_last (hpos : 0 < numShadows) (hle : numShadows ≤ numEntries)
    (hlast : tid + 1 = numShadows) :
    subRange numShadows numEntries tid = fromShadow numShadows numEntries tid := by
  rw [subRange_eq hpos hle, if_pos hlast]
  unfold fromShadow
  have hdiv := Nat.div_add_mod numEntries numShadows
  generalize numEntries / numShadows = subBatchSize at hdiv ⊢
  rw [← hlast, Nat.succ_mul] at hdiv
  congr 1
  rw [← hlast]
  omega

/-- Any other takes the front of what it and its right neighbours get. -/
theorem subRange_append (hle : numShadows ≤ numEntries) (htid : tid + 1 < numShadows) :
    subRange numShadows numEntries tid ++ fromShadow numShadows numEntries (tid + 1)
      = fromShadow numShadows numEntries tid := by
  have hbound : (tid + 1 + 1) * (numEntries / numShadows) ≤ numEntries := mul_div_le htid
  rw [subRange_eq (by omega) hle, if_neg (by omega)]
  unfold fromShadow
  rw [Nat.add_zero, Nat.succ_mul, List.range'_append_1]
  rw [Nat.succ_mul, Nat.succ_mul] at hbound
  generalize numEntries / numShadows = subBatchSize at hbound ⊢
  congr 1
  omega

theorem mem_fromShadow {i : Nat} : i ∈ fromShadow numShadows numEntries tid
    ↔ tid * (numEntries / numShadows) ≤ i ∧ i < numEntries := by
  unfold fromShadow
  rw [List.mem_range'_1]
  omega

theorem mem_subRange (hpos : 0 < numShadows) (hle : numShadows ≤ numEntries)
    (htid : tid < numShadows) {i : Nat} :
    i ∈ subRange numShadows numEntries tid
      ↔ tid * (numEntries / numShadows) ≤ i ∧ i < numEntries
        ∧ (tid + 1 < numShadows → i < (tid + 1) * (numEntries / numShadows)) := by
  by_cases hlast : tid + 1 = numShadows
  · rw [subRange_last hpos hle hlast, mem_fromShadow]
    omega
  · have hbound : (tid + 1) * (numEntries / numShadows) ≤ numEntries := mul_div_le htid
    rw [subRange_eq hpos hle, if_neg hlast, List.mem_range'_1, Nat.succ_mul]
    rw [Nat.succ_mul] at hbound
    generalize numEntries / numShadows = subBatchSize at hbound ⊢
    omega

/-- Two sub-ranges with a slot in common are the same one. -/
theorem subRange_unique {tid' i : Nat} (hpos : 0 < numShadows) (hle : numShadows ≤ numEntries)
    (htid : tid < numShadows) (htid' : tid' < numShadows)
    (hi : i ∈ subRange numShadows numEntries tid)
    (hi' : i ∈ subRange numShadows numEntries tid') : tid = tid' := by
  rw [mem_subRange hpos hle htid] at hi
  rw [mem_subRange hpos hle htid'] at hi'
  rcases Nat.lt_trichotomy tid tid' with hlt | heq | hlt
  · have hmul := Nat.mul_le_mul_right (numEntries / numShadows) hlt
    exact absurd (hi.2.2 (by omega)) (Nat.not_lt.mpr (Nat.le_trans hmul hi'.1))
  · exact heq
  · have hmul := Nat.mul_le_mul_right (numEntries / numShadows) hlt
    exact absurd (hi'.2.2 (by omega)) (Nat.not_lt.mpr (Nat.le_trans hmul hi.1))

/-- A batch with an entry for every shadow is partitioned; a shorter one
is not, since shadow 0 then visits the slot past the last entry. -/
theorem partitions_iff (hpos : 0 < numShadows) :
    Partitions numShadows numEntries ↔ numShadows ≤ numEntries := by
  constructor
  · intro h
    by_contra hlt
    have hlt' : numEntries < numShadows := Nat.lt_of_not_le hlt
    have hmem : numEntries ∈ subRange numShadows numEntries 0 := by
      unfold subRange leftBound rightBound
      simp [Nat.div_eq_of_lt hlt', Nat.mod_eq_of_lt hlt', List.mem_range'_1]
    exact Nat.lt_irrefl _ (h.2 0 hpos numEntries hmem)
  · intro hle
    have hsub : 0 < numEntries / numShadows := Nat.div_pos hle hpos
    refine ⟨fun i hi => ?_, fun tid htid i hi => ((mem_subRange hpos hle htid).mp hi).2.1⟩
    have hmem : i ∈ subRange numShadows numEntries
        (min (i / (numEntries / numShadows)) (numShadows - 1)) := by
      rw [mem_subRange hpos hle (by omega)]
      refine ⟨?_, hi, fun hlast => ?_⟩
      · exact Nat.le_trans (Nat.mul_le_mul_right _ (Nat.min_le_left ..))
          (Nat.div_mul_le_self i _)
      · rw [Nat.min_eq_left (by omega), Nat.mul_comm]
        exact Nat.lt_mul_div_succ i hsub
    refine ⟨_, ⟨by omega, hmem⟩, ?_⟩
    intro tid htid
    exact subRange_unique hpos hle htid.1 (by omega) htid.2 hmem

end SubRange

-- ============================================================== one slot

/-- The operations that do not stay in order with the rest: an
allocation is never passed on, and a commit or a cycle search goes past
the queue of its own shadow. -/
def Operation.outOfOrder : Operation → Bool
  | .allocAdd => true
  | op => op.leftmostOnly

theorem Operation.outOfOrder_iff {op : Operation} :
    op.outOfOrder = true ↔ op = .allocAdd ∨ op.leftmostOnly = true := by
  cases op <;> simp [Operation.outOfOrder, Operation.leftmostOnly]

/-- An entry that looks up nothing and stays in order does nothing. -/
theorem processEntry_idle {env : Env} {e : ShadowEntry} (hlook : lookedUp env e = none)
    (horder : e.operation.outOfOrder = false) (rt : Runtime) :
    processEntry env rt e = rt ∧ leftAtRoot env e = e := by
  unfold processEntry leftAtRoot
  unfold lookedUp at hlook
  cases hop : e.operation with
  | allocAdd => rw [hop] at horder; cases horder
  | stateCommit => rw [hop] at horder; cases horder
  | detectCycle => rw [hop] at horder; cases horder
  | escapeAdd =>
      simp only [hop] at hlook
      have hnull : e.ptr = 0 ∨ env.mem e.ptr = 0 := by
        by_contra hnot
        rw [if_neg hnot] at hlook
        cases hlook
      exact ⟨by simp only [processAddEscape, if_pos hnull], rfl⟩
  | allocFree => simp [hop] at hlook
  | stateAddRead => simp [hop] at hlook
  | stateAddWrite => simp [hop] at hlook
  | stateAdd c => simp [hop] at hlook
  | stateRegionSet => simp [hop] at hlook
  | freeSlot => exact ⟨rfl, rfl⟩
  | allocating => exact ⟨rfl, rfl⟩
  | stateBegin => exact ⟨rfl, rfl⟩
  | stateEnd => exact ⟨rfl, rfl⟩
  | threadKill => exact ⟨rfl, rfl⟩
  | redundant => exact ⟨rfl, rfl⟩

namespace Shadows

variable {env : Env} {tid : Nat} {sh : Shadows}

/-- Does the entry in this slot look up a block? -/
def waits (env : Env) (sh : Shadows) (slot : Nat) : Bool :=
  (lookedUp env (sh.shadowEntries slot)).isSome

/-- The table of a shadow that has allocated nothing. -/
def NothingLocal (sh : Shadows) (tid : Nat) : Prop :=
  sh.localAllocationTable tid = AllocationTable.ofMasks [8]

/-- On an empty table every lookup fails. -/
theorem misses_ofMasks (env : Env) (allocs : AllocId → Allocation) (e : ShadowEntry) :
    misses env allocs (AllocationTable.ofMasks [8]) e = (lookedUp env e).isSome := by
  unfold misses
  cases lookedUp env e with
  | none => rfl
  | some p => rfl

theorem table_of_ne (htid : tid ≠ 0) : sh.table tid = sh.localAllocationTable tid :=
  if_neg htid

/-- A shadow with an empty table passes on whatever looks up a block. -/
theorem processSlot_passOn (htid : tid ≠ 0) (hlocal : sh.NothingLocal tid) {slot : Nat}
    (horder : (sh.shadowEntries slot).operation.outOfOrder = false) :
    processSlot env tid sh slot
      = if sh.waits env slot then sh.pushBack tid slot
        else { sh with performed := sh.performed ++ [slot] } := by
  have hleft : (sh.shadowEntries slot).operation.leftmostOnly = false := by
    by_contra hnot
    rw [Operation.outOfOrder_iff.mpr (Or.inr (Bool.eq_true_of_not_eq_false hnot))] at horder
    cases horder
  unfold processSlot waits
  rw [if_neg htid, hleft, table_of_ne htid, hlocal, misses_ofMasks]
  simp only [Bool.false_eq_true, if_false]
  split
  · rfl
  · rename_i hwait
    have hlook : lookedUp env (sh.shadowEntries slot) = none := by
      simpa using hwait
    obtain ⟨hidle, hroot⟩ := processEntry_idle hlook horder
      { sh.rt with allocationMap := AllocationTable.ofMasks [8] }
    have hself : Function.update sh.localAllocationTable tid (AllocationTable.ofMasks [8])
        = sh.localAllocationTable := by
      rw [← hlocal]
      exact Function.update_eq_self ..
    unfold perform setTable
    rw [table_of_ne htid, hlocal]
    simp only [hidle, hroot, ite_self, Function.update_eq_self, if_neg htid, hself]

/-- A whole queue or sub-range on such a shadow. -/
theorem foldl_passOn (htid : tid ≠ 0) (slots : List Nat) :
    ∀ {sh : Shadows}, sh.NothingLocal tid →
      (∀ i ∈ slots, (sh.shadowEntries i).operation.outOfOrder = false) →
      slots.foldl (processSlot env tid) sh
        = { sh with
            overflowWork := Function.update sh.overflowWork tid
              (sh.overflowWork tid ++ slots.filter (sh.waits env))
            performed := sh.performed ++ slots.filter (fun i => ! sh.waits env i) } := by
  induction slots with
  | nil =>
      intro sh _ _
      simp only [List.foldl_nil, List.filter_nil, List.append_nil, Function.update_eq_self]
  | cons i slots ih =>
      intro sh hlocal horder
      rw [List.foldl_cons, processSlot_passOn htid hlocal (horder i List.mem_cons_self)]
      have hrest : ∀ j ∈ slots, (sh.shadowEntries j).operation.outOfOrder = false :=
        fun j hj => horder j (List.mem_cons_of_mem i hj)
      cases hwait : sh.waits env i with
      | true =>
          rw [if_pos rfl, @ih (sh.pushBack tid i) hlocal hrest]
          simp only [pushBack, List.filter_cons, hwait, Function.update_self,
            Function.update_idem, List.append_assoc, List.cons_append, List.nil_append,
            if_true, Bool.not_true, Bool.false_eq_true, if_false]
          rfl
      | false =>
          rw [if_neg Bool.false_ne_true,
            @ih { sh with performed := sh.performed ++ [i] } hlocal hrest]
          simp only [List.filter_cons, hwait, List.append_assoc, List.cons_append,
            List.nil_append, Bool.false_eq_true, if_false, Bool.not_false, if_true]
          rfl

/-- Shadow 0 processes a queue or sub-range as it stands. The entries it
was not through with are as they were. -/
theorem foldl_leftmost (slots : List Nat) :
    ∀ (sh : Shadows), slots.Nodup → ∃ entries : Nat → ShadowEntry,
      (∀ i ∉ slots, entries i = sh.shadowEntries i)
        ∧ slots.foldl (processSlot env 0) sh
          = { sh with
              rt := processEntries env sh.rt (slots.map sh.shadowEntries)
              shadowEntries := entries
              performed := sh.performed ++ slots } := by
  induction slots with
  | nil => intro sh _; exact ⟨sh.shadowEntries, fun _ _ => rfl, by simp [processEntries]⟩
  | cons i slots ih =>
      intro sh hnodup
      obtain ⟨hi, hnodup⟩ := List.nodup_cons.mp hnodup
      obtain ⟨entries, hentries, hfold⟩ := ih (processSlot env 0 sh i) hnodup
      have hother : ∀ j, j ≠ i →
          (processSlot env 0 sh i).shadowEntries j = sh.shadowEntries j :=
        fun j hj => Function.update_of_ne hj ..
      refine ⟨entries, fun j hj => ?_, ?_⟩
      · rw [List.mem_cons, not_or] at hj
        rw [hentries j hj.2, hother j hj.1]
      · have hmap : slots.map (processSlot env 0 sh i).shadowEntries
            = slots.map sh.shadowEntries := by
          refine List.map_congr_left fun j hj => hother j ?_
          rintro rfl
          exact hi hj
        rw [List.foldl_cons, hfold, hmap]
        have hperf : (processSlot env 0 sh i).performed = sh.performed ++ [i] := rfl
        rw [hperf, List.append_assoc]
        rfl

/-- The loop of a thread that has not started. -/
theorem step_loop {numShadows numEntries : Nat} {sh' : Shadows}
    (hstep : sh.step env numShadows numEntries (.loop tid) = some sh') :
    tid < numShadows ∧ sh.phase tid = .start
      ∧ sh' = { sh.processPart env tid (subRange numShadows numEntries tid) with
          phase := Function.update sh.phase tid
            (if tid + 1 = numShadows then .done else .looped) } := by
  simp only [step] at hstep
  by_cases hturn : tid < numShadows ∧ sh.phase tid = .start
  · rw [if_pos hturn] at hstep
    injection hstep with hstep
    exact ⟨hturn.1, hturn.2, hstep.symm⟩
  · rw [if_neg hturn] at hstep
    cases hstep

/-- The merge of a thread whose right neighbour is done. -/
theorem step_merge {numShadows numEntries : Nat} {sh' : Shadows}
    (hstep : sh.step env numShadows numEntries (.merge tid) = some sh') :
    sh.phase tid = .looped ∧ sh.phase (tid + 1) = .done
      ∧ sh' = { sh.mergeRight env tid with phase := Function.update sh.phase tid .done } := by
  simp only [step] at hstep
  by_cases hturn : sh.phase tid = .looped ∧ sh.phase (tid + 1) = .done
  · rw [if_pos hturn] at hstep
    injection hstep with hstep
    exact ⟨hturn.1, hturn.2, hstep.symm⟩
  · rw [if_neg hturn] at hstep
    cases hstep

theorem setTable_self (tid : Nat) (sh : Shadows) : sh.setTable tid (sh.table tid) = sh := by
  unfold setTable table
  by_cases htid : tid = 0
  · simp only [if_pos htid]
  · simp only [if_neg htid, Function.update_eq_self]

/-- A merge of two empty tables changes nothing. -/
theorem mergeRight_passOn (htid : tid ≠ 0) (hlocal : sh.NothingLocal tid)
    (hright : sh.NothingLocal (tid + 1)) :
    sh.mergeRight env tid = (sh.overflowWork (tid + 1)).foldl (processSlot env tid) sh := by
  have htable : sh.table tid = AllocationTable.ofMasks [8] := (table_of_ne htid).trans hlocal
  have htable' : sh.table (tid + 1) = AllocationTable.ofMasks [8] :=
    (table_of_ne (Nat.succ_ne_zero tid)).trans hright
  have hmerge : mergeTable (sh.table tid) (sh.table (tid + 1)) true = sh.table tid := by
    rw [htable, htable']
    rfl
  have hclear : clear (sh.table (tid + 1)) = sh.table (tid + 1) := by
    rw [htable']
    rfl
  unfold mergeRight
  simp only [hmerge, hclear, setTable_self]

/-- A merge of an empty table into the global one adds a mask. -/
theorem mergeRight_leftmost (hright : sh.NothingLocal 1) :
    sh.mergeRight env 0
      = (sh.overflowWork 1).foldl (processSlot env 0)
          { sh with
            rt := sh.rt.withMasks (sh.rt.allocationMap.masks.insert (maskForLength 8)) } := by
  have htable : sh.table 1 = AllocationTable.ofMasks [8] :=
    (table_of_ne Nat.one_ne_zero).trans hright
  have hmerge : mergeTable (sh.table 0) (sh.table 1) true
      = { sh.rt.allocationMap with
          masks := sh.rt.allocationMap.masks.insert (maskForLength 8) } := by
    rw [htable]
    rfl
  have hclear : clear (sh.table 1) = sh.table 1 := by
    rw [htable]
    rfl
  have hself : ∀ t, (sh.setTable 0 t).setTable 1 (sh.table 1) = sh.setTable 0 t := by
    intro t
    exact setTable_self 1 (sh.setTable 0 t)
  unfold mergeRight
  simp only [hmerge, Nat.zero_add, hclear, hself]
  rfl

end Shadows

-- ============================================== everything stays in order

/-- Every shadow gets an entry, and the entries that would not stay in
order are all shadow 0's. -/
structure Confined (numShadows : Nat) (entries : List ShadowEntry) : Prop where
  le : numShadows ≤ entries.length
  leftmost : ∀ e slot, entries[slot]? = some e → e.operation.outOfOrder = true →
    slot ∈ subRange numShadows entries.length 0

/-- The slots a shadow answers for, by how far it is: its own, and once
it is done those to its right. -/
def covered (numShadows numEntries tid : Nat) : ShadowPhase → List Nat
  | .start => []
  | .looped => subRange numShadows numEntries tid
  | .done => fromShadow numShadows numEntries tid

/-- How far the shadows can be: they are done from the right. -/
structure InPhase (numShadows : Nat) (phase : Nat → ShadowPhase) : Prop where
  lt : ∀ tid, phase tid ≠ .start → tid < numShadows
  looped_lt : ∀ tid, phase tid = .looped → tid + 1 < numShadows
  done_right : ∀ tid, phase tid = .done → tid + 1 < numShadows → phase (tid + 1) = .done

/-- One shadow goes on. -/
theorem InPhase.update {numShadows tid : Nat} {phases : Nat → ShadowPhase} {phase : ShadowPhase}
    (h : InPhase numShadows phases) (htid : tid < numShadows) (hnot : phases tid ≠ .done)
    (hlooped : phase = .looped → tid + 1 < numShadows)
    (hdone : phase = .done → tid + 1 < numShadows → phases (tid + 1) = .done) :
    InPhase numShadows (Function.update phases tid phase) := by
  refine ⟨fun k hk => ?_, fun k hk => ?_, fun k hk hlt => ?_⟩
  · by_cases hkt : k = tid
    · rw [hkt]
      exact htid
    · rw [Function.update_of_ne hkt] at hk
      exact h.lt k hk
  · by_cases hkt : k = tid
    · rw [hkt, Function.update_self] at hk
      rw [hkt]
      exact hlooped hk
    · rw [Function.update_of_ne hkt] at hk
      exact h.looped_lt k hk
  · by_cases hkt : k = tid
    · rw [hkt, Function.update_self] at hk
      rw [hkt] at hlt ⊢
      rw [Function.update_of_ne (Nat.succ_ne_self tid)]
      exact hdone hk hlt
    · rw [Function.update_of_ne hkt] at hk
      have hright := h.done_right k hk hlt
      -- a shadow left of this one is not done before it
      have hne : k + 1 ≠ tid := by
        rintro rfl
        exact hnot hright
      rw [Function.update_of_ne hne]
      exact hright

/-- The phase a loop ends in: the rightmost shadow has nothing to merge. -/
theorem InPhase.loop {numShadows tid : Nat} {phases : Nat → ShadowPhase}
    (h : InPhase numShadows phases) (htid : tid < numShadows) (hstart : phases tid = .start) :
    InPhase numShadows (Function.update phases tid
      (if tid + 1 = numShadows then .done else .looped)) := by
  refine h.update htid ?_ (fun hlooped => ?_) (fun hdone hlt => ?_)
  · rw [hstart]
    exact ShadowPhase.noConfusion
  · split at hlooped
    · cases hlooped
    · omega
  · rw [if_neg (Nat.ne_of_lt hlt)] at hdone
    cases hdone

/-- Shadow 0 is done last. -/
theorem InPhase.not_done {numShadows tid : Nat} {phases : Nat → ShadowPhase}
    (h : InPhase numShadows phases) (htid : tid < numShadows) (hphase : phases tid ≠ .done) :
    phases 0 ≠ .done := by
  intro h0
  have hall : ∀ k, k < numShadows → phases k = .done := by
    intro k
    induction k with
    | zero => intro _; exact h0
    | succ k ih => intro hk; exact h.done_right k (ih (by omega)) hk
  exact hphase (hall tid htid)

/-- How the shadows stand between two turns, when everything stays in
order: what has to wait waits in the queue of the shadow that answers
for it, and shadow 0 is where the one shadow would be. -/
structure OnCourse (env : Env) (numShadows : Nat) (rt : Runtime) (entries : List ShadowEntry)
    (past : Nat → ShadowEntry) (sh : Shadows) : Prop where
  phases : InPhase numShadows sh.phase
  nothingLocal : ∀ tid, sh.NothingLocal tid
  unread : sh.phase 0 ≠ .done → ∀ i,
    i ∉ covered numShadows entries.length 0 (sh.phase 0) →
      sh.shadowEntries i = (Shadows.init rt entries past).shadowEntries i
  queue : ∀ tid, tid ≠ 0 → sh.overflowWork tid
    = (covered numShadows entries.length tid (sh.phase tid)).filter
        ((Shadows.init rt entries past).waits env)
  before : sh.phase 0 ≠ .done → sh.rt = processEntries env rt
    ((covered numShadows entries.length 0 (sh.phase 0)).map
      (Shadows.init rt entries past).shadowEntries)
  after : sh.phase 0 = .done →
    sh.rt.unmasked = (processEntries env rt entries).unmasked
  own : sh.performed.filter (· ∈ subRange numShadows entries.length 0)
    = if sh.phase 0 = .start then [] else subRange numShadows entries.length 0

section Course

variable {env : Env} {numShadows : Nat} {rt : Runtime} {entries : List ShadowEntry}
  {past : Nat → ShadowEntry} {sh sh' : Shadows} {tid : Nat}

/-- An entry right of shadow 0's stays in order. -/
theorem Confined.inOrder (hc : Confined numShadows entries) {i : Nat} (hi : i < entries.length)
    (hout : i ∉ subRange numShadows entries.length 0) :
    ((Shadows.init rt entries past).shadowEntries i).operation.outOfOrder = false := by
  show (entries[i]?.getD (past i)).operation.outOfOrder = false
  rw [List.getElem?_eq_getElem hi, Option.getD_some]
  by_contra hnot
  exact hout (hc.leftmost _ i (List.getElem?_eq_getElem hi) (by simpa using hnot))

/-- What another shadow answers for is not shadow 0's. -/
theorem right_of_leftmost (hle : numShadows ≤ entries.length) (htid : tid < numShadows)
    (hne : tid ≠ 0) {i : Nat} (hi : i ∈ fromShadow numShadows entries.length tid) :
    i < entries.length ∧ i ∉ subRange numShadows entries.length 0 := by
  refine ⟨(mem_fromShadow.mp hi).2, fun h0 => ?_⟩
  have hpos : 0 < numShadows := Nat.lt_of_le_of_lt (Nat.zero_le tid) htid
  have hfirst := ((mem_subRange hpos hle hpos).mp h0).2.2 (by omega)
  have hmul := Nat.mul_le_mul_right (entries.length / numShadows) (Nat.pos_of_ne_zero hne)
  exact absurd hfirst (Nat.not_lt.mpr (Nat.le_trans hmul (mem_fromShadow.mp hi).1))

/-- A sub-range is part of what its shadow ends up answering for. -/
theorem subRange_subset (hle : numShadows ≤ entries.length) (htid : tid < numShadows) {i : Nat}
    (hi : i ∈ subRange numShadows entries.length tid) :
    i ∈ fromShadow numShadows entries.length tid := by
  have hpos : 0 < numShadows := Nat.lt_of_le_of_lt (Nat.zero_le tid) htid
  obtain ⟨hleft, hlt, -⟩ := (mem_subRange hpos hle htid).mp hi
  exact mem_fromShadow.mpr ⟨hleft, hlt⟩

theorem onCourse_init (env : Env) (numShadows : Nat) (rt : Runtime) (entries : List ShadowEntry)
    (past : Nat → ShadowEntry) :
    OnCourse env numShadows rt entries past (.init rt entries past) where
  phases := ⟨fun _ h => absurd rfl h, fun _ h => ShadowPhase.noConfusion h, fun _ h => ShadowPhase.noConfusion h⟩
  nothingLocal := fun _ => rfl
  unread := fun _ _ _ => rfl
  queue := fun _ _ => rfl
  before := fun _ => rfl
  after := fun h => by cases h
  own := rfl

/-- A turn of another shadow: it fills its queue and is through with
slots that are not shadow 0's. -/
theorem OnCourse.pass (h : OnCourse env numShadows rt entries past sh) (hne : tid ≠ 0)
    {phase : ShadowPhase} (hphase : InPhase numShadows (Function.update sh.phase tid phase))
    {queue performed : List Nat}
    (hqueue : queue = (covered numShadows entries.length tid phase).filter
      ((Shadows.init rt entries past).waits env))
    (hperf : ∀ i ∈ performed, i ∉ subRange numShadows entries.length 0) :
    OnCourse env numShadows rt entries past
      { sh with
        overflowWork := Function.update sh.overflowWork tid queue
        performed := sh.performed ++ performed
        phase := Function.update sh.phase tid phase } := by
  have h0 : Function.update sh.phase tid phase 0 = sh.phase 0 :=
    Function.update_of_ne (Ne.symm hne) ..
  refine
    { phases := hphase, nothingLocal := h.nothingLocal, unread := ?_, queue := fun k hk => ?_,
      before := ?_, after := ?_, own := ?_ }
  · simpa only [h0] using h.unread
  · by_cases hkt : k = tid
    · subst hkt
      simpa using hqueue
    · simpa [Function.update_of_ne hkt] using h.queue k hk
  · simpa only [h0] using h.before
  · simpa only [h0] using h.after
  · have hnil : performed.filter (· ∈ subRange numShadows entries.length 0) = [] :=
      List.filter_eq_nil_iff.mpr fun i hi => by simpa using hperf i hi
    simpa only [h0, List.filter_append, hnil, List.append_nil] using h.own

/-- The entries another shadow reads are as the cleaner left them. -/
theorem OnCourse.entries_eq (h : OnCourse env numShadows rt entries past sh)
    (h0 : sh.phase 0 ≠ .done) {i : Nat} (hi : i ∉ subRange numShadows entries.length 0) :
    sh.shadowEntries i = (Shadows.init rt entries past).shadowEntries i := by
  refine h.unread h0 i ?_
  cases hphase : sh.phase 0 with
  | start => exact List.not_mem_nil
  | looped => exact hi
  | done => exact absurd hphase h0

/-- The queue of a shadow that is done. -/
theorem OnCourse.queue_done (h : OnCourse env numShadows rt entries past sh) (hne : tid ≠ 0)
    (hdone : sh.phase tid = .done) :
    sh.overflowWork tid = (fromShadow numShadows entries.length tid).filter
      ((Shadows.init rt entries past).waits env) := by
  rw [h.queue tid hne, hdone]
  rfl

theorem OnCourse.queued (h : OnCourse env numShadows rt entries past sh)
    (hle : numShadows ≤ entries.length) (hne : tid ≠ 0) (hdone : sh.phase tid = .done) {i : Nat}
    (hi : i ∈ sh.overflowWork tid) :
    i < entries.length ∧ i ∉ subRange numShadows entries.length 0 := by
  have htid : tid < numShadows := h.phases.lt tid (by rw [hdone]; exact ShadowPhase.noConfusion)
  rw [h.queue_done hne hdone] at hi
  exact right_of_leftmost hle htid hne (List.mem_filter.mp hi).1

/-- What another shadow makes of slots that are not shadow 0's. -/
theorem OnCourse.foldl_passOn (h : OnCourse env numShadows rt entries past sh)
    (hc : Confined numShadows entries) (hne : tid ≠ 0) (h0 : sh.phase 0 ≠ .done)
    (queue : List Nat) {slots : List Nat}
    (hslots : ∀ i ∈ slots, i < entries.length ∧ i ∉ subRange numShadows entries.length 0) :
    slots.foldl (Shadows.processSlot env tid)
        { sh with overflowWork := Function.update sh.overflowWork tid queue }
      = { sh with
          overflowWork := Function.update sh.overflowWork tid
            (queue ++ slots.filter ((Shadows.init rt entries past).waits env))
          performed := sh.performed
            ++ slots.filter (fun i => ! (Shadows.init rt entries past).waits env i) } := by
  have hentry : ∀ i ∈ slots,
      sh.shadowEntries i = (Shadows.init rt entries past).shadowEntries i :=
    fun i hi => h.entries_eq h0 (hslots i hi).2
  have hwaits : ∀ i ∈ slots, sh.waits env i = (Shadows.init rt entries past).waits env i := by
    intro i hi
    unfold Shadows.waits
    rw [hentry i hi]
  have horder : ∀ i ∈ slots, (sh.shadowEntries i).operation.outOfOrder = false := by
    intro i hi
    rw [hentry i hi]
    exact hc.inOrder (hslots i hi).1 (hslots i hi).2
  have hyes : slots.filter (sh.waits env)
      = slots.filter ((Shadows.init rt entries past).waits env) :=
    List.filter_congr hwaits
  have hno : slots.filter (fun i => ! sh.waits env i)
      = slots.filter (fun i => ! (Shadows.init rt entries past).waits env i) :=
    List.filter_congr fun i hi => by rw [hwaits i hi]
  have hfold := @Shadows.foldl_passOn env tid hne slots
    { sh with overflowWork := Function.update sh.overflowWork tid queue }
    (h.nothingLocal tid) horder
  rw [hfold, ← hyes, ← hno]
  simp only [Function.update_self, Function.update_idem]
  rfl

/-- The loop of another shadow. -/
theorem OnCourse.loop (h : OnCourse env numShadows rt entries past sh)
    (hc : Confined numShadows entries) (hne : tid ≠ 0) (htid : tid < numShadows)
    (hphase : sh.phase tid = .start) :
    OnCourse env numShadows rt entries past
      { sh.processPart env tid (subRange numShadows entries.length tid) with
        phase := Function.update sh.phase tid
          (if tid + 1 = numShadows then .done else .looped) } := by
  have hstart : sh.phase tid ≠ .done := by
    rw [hphase]
    exact ShadowPhase.noConfusion
  have hslots : ∀ i ∈ subRange numShadows entries.length tid,
      i < entries.length ∧ i ∉ subRange numShadows entries.length 0 :=
    fun i hi => right_of_leftmost hc.le htid hne (subRange_subset hc.le htid hi)
  unfold Shadows.processPart
  rw [h.foldl_passOn hc hne (h.phases.not_done htid hstart) [] hslots, List.nil_append]
  refine h.pass hne (h.phases.loop htid hphase) ?_ ?_
  · split
    · rename_i hlast
      have hpos : 0 < numShadows := Nat.lt_of_le_of_lt (Nat.zero_le tid) htid
      rw [subRange_last hpos hc.le hlast]
      rfl
    · rfl
  · intro i hi
    exact (hslots i (List.mem_filter.mp hi).1).2

/-- The merge of another shadow. -/
theorem OnCourse.merge (h : OnCourse env numShadows rt entries past sh)
    (hc : Confined numShadows entries) (hne : tid ≠ 0) (hphase : sh.phase tid = .looped)
    (hright : sh.phase (tid + 1) = .done) :
    OnCourse env numShadows rt entries past
      { sh.mergeRight env tid with phase := Function.update sh.phase tid .done } := by
  have hlt := h.phases.looped_lt tid hphase
  have hlooped : sh.phase tid ≠ .done := by
    rw [hphase]
    exact ShadowPhase.noConfusion
  have hqueue := h.queue_done (Nat.succ_ne_zero tid) hright
  have hslots : ∀ i ∈ sh.overflowWork (tid + 1),
      i < entries.length ∧ i ∉ subRange numShadows entries.length 0 :=
    fun i hi => h.queued hc.le (Nat.succ_ne_zero tid) hright hi
  have hfold := h.foldl_passOn hc hne (h.phases.not_done (by omega) hlooped) (sh.overflowWork tid) hslots
  rw [Function.update_eq_self] at hfold
  rw [Shadows.mergeRight_passOn hne (h.nothingLocal tid) (h.nothingLocal (tid + 1)), hfold]
  refine h.pass hne (h.phases.update (by omega) hlooped (fun hp => by cases hp)
    (fun _ _ => hright)) ?_ ?_
  · have hown := h.queue tid hne
    rw [hphase] at hown
    rw [hown, hqueue, List.filter_filter]
    show (subRange numShadows entries.length tid).filter _
        ++ (fromShadow numShadows entries.length (tid + 1)).filter _
      = (fromShadow numShadows entries.length tid).filter _
    rw [← subRange_append hc.le hlt, List.filter_append]
    simp only [Bool.and_self]
  · intro i hi
    exact (hslots i (List.mem_filter.mp hi).1).2

/-- All slots of the batch, in order. -/
theorem map_fromShadow_zero (numShadows : Nat) (rt : Runtime) (entries : List ShadowEntry)
    (past : Nat → ShadowEntry) :
    (fromShadow numShadows entries.length 0).map (Shadows.init rt entries past).shadowEntries
      = entries := by
  unfold fromShadow
  rw [Nat.zero_mul, Nat.sub_zero]
  refine List.ext_getElem (by simp) fun i hi hi' => ?_
  simp [Shadows.init, List.getElem?_eq_getElem hi']

/-- The entries that look up nothing may be left out. -/
theorem processEntries_waits (env : Env) (slot : Nat → ShadowEntry) (slots : List Nat) :
    ∀ {rt : Runtime}, (∀ i ∈ slots, (slot i).operation.outOfOrder = false) →
      processEntries env rt
          ((slots.filter fun i => (lookedUp env (slot i)).isSome).map slot)
        = processEntries env rt (slots.map slot) := by
  induction slots with
  | nil => intro rt _; rfl
  | cons i slots ih =>
      intro rt horder
      have hrest : ∀ j ∈ slots, (slot j).operation.outOfOrder = false :=
        fun j hj => horder j (List.mem_cons_of_mem i hj)
      rw [List.filter_cons, List.map_cons]
      cases hlook : lookedUp env (slot i) with
      | none =>
          have hidle := (processEntry_idle hlook (horder i List.mem_cons_self) rt).1
          show processEntries env rt _ = processEntries env (processEntry env rt (slot i)) _
          rw [hidle]
          exact ih hrest
      | some p => exact ih hrest

theorem nodup_subRange (numShadows numEntries tid : Nat) :
    (subRange numShadows numEntries tid).Nodup := List.nodup_range'

/-- A turn of shadow 0. -/
theorem OnCourse.leftmost (h : OnCourse env numShadows rt entries past sh) {phase : ShadowPhase}
    (hphase : InPhase numShadows (Function.update sh.phase 0 phase)) (hstart : phase ≠ .start)
    {rt' : Runtime} {left : Nat → ShadowEntry} {queues : Nat → List Nat} {performed : List Nat}
    (hqueues : ∀ k, k ≠ 0 → queues k = sh.overflowWork k)
    (hleft : phase ≠ .done → ∀ i, i ∉ subRange numShadows entries.length 0 →
      left i = (Shadows.init rt entries past).shadowEntries i)
    (hbefore : phase ≠ .done → rt' = processEntries env rt
      ((subRange numShadows entries.length 0).map (Shadows.init rt entries past).shadowEntries))
    (hafter : phase = .done → rt'.unmasked = (processEntries env rt entries).unmasked)
    (hown : performed.filter (· ∈ subRange numShadows entries.length 0)
      = subRange numShadows entries.length 0) :
    OnCourse env numShadows rt entries past
      { sh with
        rt := rt'
        shadowEntries := left
        overflowWork := queues
        performed := performed
        phase := Function.update sh.phase 0 phase } := by
  have hnew : Function.update sh.phase 0 phase 0 = phase := Function.update_self ..
  have hlooped : phase ≠ .done → phase = .looped := by
    intro hne
    cases phase with
    | start => exact absurd rfl hstart
    | looped => rfl
    | done => exact absurd rfl hne
  refine
    { phases := hphase, nothingLocal := h.nothingLocal, unread := ?_, queue := fun k hk => ?_,
      before := ?_, after := ?_, own := ?_ }
  · simp only [hnew]
    intro hne i hi
    rw [hlooped hne] at hi
    exact hleft hne i hi
  · simp only [hqueues k hk, Function.update_of_ne hk]
    exact h.queue k hk
  · simp only [hnew]
    intro hne
    rw [hlooped hne]
    exact hbefore hne
  · simp only [hnew]
    exact hafter
  · simp only [hnew, if_neg hstart]
    exact hown

/-- The loop of shadow 0. -/
theorem OnCourse.loop_leftmost (h : OnCourse env numShadows rt entries past sh)
    (hle : numShadows ≤ entries.length) (hpos : 0 < numShadows) (hphase : sh.phase 0 = .start) :
    OnCourse env numShadows rt entries past
      { sh.processPart env 0 (subRange numShadows entries.length 0) with
        phase := Function.update sh.phase 0 (if 0 + 1 = numShadows then .done else .looped) } := by
  have hnot : sh.phase 0 ≠ .done := by
    rw [hphase]
    exact ShadowPhase.noConfusion
  have hunread : sh.shadowEntries = (Shadows.init rt entries past).shadowEntries := by
    funext i
    refine h.unread hnot i ?_
    rw [hphase]
    exact List.not_mem_nil
  have hrt : sh.rt = rt := by
    rw [h.before hnot, hphase]
    rfl
  have hown := h.own
  rw [if_pos hphase] at hown
  obtain ⟨left, hleft, hfold⟩ := @Shadows.foldl_leftmost env (subRange numShadows entries.length 0)
    { sh with overflowWork := Function.update sh.overflowWork 0 [] } (nodup_subRange ..)
  unfold Shadows.processPart
  rw [hfold]
  refine h.leftmost (h.phases.loop hpos hphase) ?_ (fun k hk => Function.update_of_ne hk ..)
    (fun _ i hi => ?_) (fun _ => ?_) (fun hdone => ?_) ?_
  · split
    · exact ShadowPhase.noConfusion
    · exact ShadowPhase.noConfusion
  · rw [← hunread]
    exact hleft i hi
  · rw [← hunread, ← hrt]
  · have hlast : 0 + 1 = numShadows := by
      by_contra hne
      rw [if_neg hne] at hdone
      cases hdone
    rw [subRange_last hpos hle hlast]
    simp only [hunread, hrt, map_fromShadow_zero]
  · rw [List.filter_append]
    simp only [hown, List.nil_append]
    exact List.filter_eq_self.mpr fun i hi => by simpa using hi

/-- What waited at shadow 0's right neighbour is the rest of the batch. -/
theorem OnCourse.rest (h : OnCourse env numShadows rt entries past sh)
    (hc : Confined numShadows entries) (hglobal : rt.allocationMap.BetweenBatches)
    (hphase : sh.phase 0 = .looped) (hright : sh.phase 1 = .done) :
    (processEntries env (sh.rt.withMasks (sh.rt.allocationMap.masks.insert (maskForLength 8)))
        ((sh.overflowWork 1).map sh.shadowEntries)).unmasked
      = (processEntries env rt entries).unmasked := by
  have hlt := h.phases.looped_lt 0 hphase
  have hnot : sh.phase 0 ≠ .done := by
    rw [hphase]
    exact ShadowPhase.noConfusion
  have hwait : (sh.overflowWork 1).map sh.shadowEntries
      = ((fromShadow numShadows entries.length 1).filter
          ((Shadows.init rt entries past).waits env)).map
            (Shadows.init rt entries past).shadowEntries := by
    rw [← h.queue_done Nat.one_ne_zero hright]
    exact List.map_congr_left fun i hi =>
      h.entries_eq hnot (h.queued hc.le Nat.one_ne_zero hright hi).2
  have horder : ∀ i ∈ fromShadow numShadows entries.length 1,
      ((Shadows.init rt entries past).shadowEntries i).operation.outOfOrder = false := by
    intro i hi
    obtain ⟨hin, hout⟩ := right_of_leftmost hc.le hlt Nat.one_ne_zero hi
    exact hc.inOrder hin hout
  have hrt := h.before hnot
  rw [hphase] at hrt
  have hglobal' : sh.rt.allocationMap.BetweenBatches := by
    rw [hrt]
    exact hglobal.processEntries _
  calc (processEntries env
          (sh.rt.withMasks (sh.rt.allocationMap.masks.insert (maskForLength 8)))
          ((sh.overflowWork 1).map sh.shadowEntries)).unmasked
      = (processEntries env sh.rt ((sh.overflowWork 1).map sh.shadowEntries)).unmasked :=
        unmasked_processEntries hglobal' _
    _ = (processEntries env sh.rt ((fromShadow numShadows entries.length 1).map
          (Shadows.init rt entries past).shadowEntries)).unmasked := by
        rw [hwait]
        exact congrArg Runtime.unmasked (processEntries_waits env _ _ horder)
    _ = (processEntries env rt ((fromShadow numShadows entries.length 0).map
          (Shadows.init rt entries past).shadowEntries)).unmasked := by
        rw [← subRange_append hc.le hlt, List.map_append, hrt]
        unfold processEntries
        rw [List.foldl_append]
        rfl
    _ = (processEntries env rt entries).unmasked := by
        rw [map_fromShadow_zero]

/-- The merge of shadow 0: everything that waited is processed, in
order, on the global table. -/
theorem OnCourse.merge_leftmost (h : OnCourse env numShadows rt entries past sh)
    (hc : Confined numShadows entries) (hglobal : rt.allocationMap.BetweenBatches)
    (hphase : sh.phase 0 = .looped) (hright : sh.phase 1 = .done) :
    OnCourse env numShadows rt entries past
      { sh.mergeRight env 0 with phase := Function.update sh.phase 0 .done } := by
  have hlt := h.phases.looped_lt 0 hphase
  have hnot : sh.phase 0 ≠ .done := by
    rw [hphase]
    exact ShadowPhase.noConfusion
  have hnodup : (sh.overflowWork 1).Nodup := by
    rw [h.queue_done Nat.one_ne_zero hright]
    exact List.Nodup.filter _ List.nodup_range'
  obtain ⟨left, -, hfold⟩ := @Shadows.foldl_leftmost env (sh.overflowWork 1)
    { sh with
      rt := sh.rt.withMasks (sh.rt.allocationMap.masks.insert (maskForLength 8)) } hnodup
  rw [Shadows.mergeRight_leftmost (h.nothingLocal 1), hfold]
  refine h.leftmost (h.phases.update (by omega) hnot (fun hp => by cases hp) (fun _ _ => hright))
    ShadowPhase.noConfusion (fun _ _ => rfl) (fun hne => absurd rfl hne) (fun hne => absurd rfl hne)
    (fun _ => ?_) ?_
  · exact h.rest hc hglobal hphase hright
  · have hnil : (sh.overflowWork 1).filter (· ∈ subRange numShadows entries.length 0) = [] :=
      List.filter_eq_nil_iff.mpr fun i hi => by
        simpa using (h.queued hc.le Nat.one_ne_zero hright hi).2
    have hown := h.own
    rw [hphase] at hown
    rw [List.filter_append, hnil, List.append_nil]
    exact hown

/-- Every turn keeps the course. -/
theorem OnCourse.step (h : OnCourse env numShadows rt entries past sh)
    (hc : Confined numShadows entries) (hglobal : rt.allocationMap.BetweenBatches)
    {turn : Shadows.Turn} (hstep : sh.step env numShadows entries.length turn = some sh') :
    OnCourse env numShadows rt entries past sh' := by
  cases turn with
  | loop tid =>
      obtain ⟨htid, hstart, rfl⟩ := Shadows.step_loop hstep
      by_cases hne : tid = 0
      · subst hne
        exact h.loop_leftmost hc.le htid hstart
      · exact h.loop hc hne htid hstart
  | merge tid =>
      obtain ⟨hlooped, hright, rfl⟩ := Shadows.step_merge hstep
      by_cases hne : tid = 0
      · subst hne
        exact h.merge_leftmost hc hglobal hlooped hright
      · exact h.merge hc hne hlooped hright

theorem OnCourse.run (hc : Confined numShadows entries)
    (hglobal : rt.allocationMap.BetweenBatches) (turns : List Shadows.Turn) :
    ∀ {sh : Shadows}, OnCourse env numShadows rt entries past sh →
      sh.run env numShadows entries.length turns = some sh' →
      OnCourse env numShadows rt entries past sh' := by
  induction turns with
  | nil => intro sh h hrun; cases hrun; exact h
  | cons turn turns ih =>
      intro sh h hrun
      unfold Shadows.run at hrun
      rw [List.foldlM_cons] at hrun
      obtain ⟨sh₁, hstep, hrun⟩ := Option.bind_eq_some_iff.mp hrun
      exact ih (h.step hc hglobal hstep) hrun

end Course

/-- A slot among the first ones, when these were through in order. -/
theorem inTurn_of_filter {performed : List Nat} {p : Nat → Bool} {m slot : Nat}
    (hp : ∀ i, p i = true ↔ i < m) (hfilter : performed.filter p = List.range' 0 m)
    (hslot : slot < m) : InTurn performed slot := by
  have hmem : slot ∈ performed.filter p := by
    rw [hfilter, List.mem_range'_1]
    omega
  obtain ⟨before, after, hsplit⟩ := List.append_of_mem (List.mem_filter.mp hmem).1
  rw [hsplit, List.filter_append, List.filter_cons_of_pos ((hp slot).mpr hslot)] at hfilter
  obtain ⟨k, -, hbefore, hafter⟩ := List.range'_eq_append_iff.mp hfilter.symm
  obtain ⟨hk, -, hafter⟩ := List.range'_eq_cons_iff.mp hafter.symm
  rw [Nat.zero_add, Nat.mul_one] at hk
  subst hk
  refine ⟨before, after, hsplit, fun h => ?_, fun h => ?_, fun i hi => ?_⟩
  · have hin : k ∈ before.filter p := List.mem_filter.mpr ⟨h, (hp k).mpr hslot⟩
    rw [hbefore, List.mem_range'_1] at hin
    omega
  · have hin : k ∈ after.filter p := List.mem_filter.mpr ⟨h, (hp k).mpr hslot⟩
    rw [hafter, List.mem_range'_1] at hin
    omega
  · have hin : i ∈ before.filter p := by
      rw [hbefore, List.mem_range'_1]
      omega
    exact (List.mem_filter.mp hin).1

/-- Shadow 0's sub-range is the front of the batch. -/
theorem subRange_zero (numShadows numEntries : Nat) :
    ∃ m, subRange numShadows numEntries 0 = List.range' 0 m := by
  refine ⟨rightBound numShadows numEntries 0 + 1, ?_⟩
  unfold subRange leftBound
  simp

/-- At the end of the course the shadows agree with the one shadow. -/
theorem OnCourse.agrees {env : Env} {numShadows : Nat} {rt : Runtime}
    {entries : List ShadowEntry} {past : Nat → ShadowEntry} {sh : Shadows}
    (h : OnCourse env numShadows rt entries past sh) (hc : Confined numShadows entries)
    (hdone : sh.phase 0 = .done) : sh.Agrees env rt entries := by
  refine ⟨h.after hdone, fun e slot he hop => ?_⟩
  have hmem := hc.leftmost e slot he (Operation.outOfOrder_iff.mpr (Or.inr hop))
  have hown := h.own
  rw [if_neg (by rw [hdone]; exact ShadowPhase.noConfusion)] at hown
  obtain ⟨m, hm⟩ := subRange_zero numShadows entries.length
  rw [hm] at hmem hown
  have hlt : ∀ i, i ∈ List.range' 0 m ↔ i < m := by
    intro i
    rw [List.mem_range'_1]
    omega
  refine inTurn_of_filter (fun i => ?_) hown ((hlt slot).mp hmem)
  rw [decide_eq_true_iff]
  exact hlt i

end Carmot.Texas
