/-
Does post-processing put every allocation into the join of its sets?

# Counting

`fixSet` looks at ids only, and what it does to one id does not depend
on the others: if the sources hold the id m and n times, both lose
min m n of them and the destination gains as many (`counts_fixSet`). So
the seven lists reduce, id by id, to seven numbers, and `fixSets` to
its 21 passes over them. After the first `removeDuplicates` the numbers
are 0 or 1, which leaves one computation for each of the 128 ways an id
can be spread over the sets (`finalCounts_eq`).

# Where it goes wrong

The loops stop at the first match, since a single set has no
duplicates. But a pass whose destination already has the id makes a
second copy there, and a later pass out of that set takes only one of
the two. `LeftBehind` lists the spreads where a copy stays.
-/
import Mathlib.Order.Bounds.Basic
import Carmot.PrettyPrint.FixSets
import Carmot.Texas.Trace

namespace Carmot.PrettyPrint

open Carmot.Lib (Usage)
open Carmot.Texas (StateClass commitOrder mem_commitOrder)
open Carmot.Wrapper

-- ============================================================ counting

/-- How often an id occurs in a list. -/
def idCount (id : UInt64) (allocations : List AllocationToSave) : Nat :=
  allocations.countP fun a => a.uniqueID == id

/-- How often an id occurs in each of the seven sets. -/
def counts (id : UInt64) (sets : PerSet (List AllocationToSave)) : PerSet Nat :=
  sets.map (idCount id)

/-- Is an allocation with this id in the set? -/
def Saved (sets : PerSet (List AllocationToSave)) (c : StateClass) (id : UInt64) : Prop :=
  ∃ a ∈ sets.get c, a.uniqueID = id

theorem saved_iff {sets : PerSet (List AllocationToSave)} {c : StateClass} {id : UInt64} :
    Saved sets c id ↔ 0 < idCount id (sets.get c) := by
  unfold idCount Saved
  rw [List.countP_pos_iff]
  simp only [beq_iff_eq]

theorem idCount_cons (id : UInt64) (a : AllocationToSave) (l : List AllocationToSave) :
    idCount id (a :: l) = idCount id l + if a.uniqueID = id then 1 else 0 := by
  unfold idCount
  rw [List.countP_cons]
  simp only [beq_iff_eq]

theorem idCount_append (id : UInt64) (l l' : List AllocationToSave) :
    idCount id (l ++ l') = idCount id l + idCount id l' := List.countP_append

theorem idCount_pos_of_mem {id : UInt64} {a : AllocationToSave} {l : List AllocationToSave}
    (ha : a ∈ l) (hid : a.uniqueID = id) : 0 < idCount id l := by
  unfold idCount
  rw [List.countP_pos_iff]
  exact ⟨a, ha, beq_iff_eq.mpr hid⟩

/-- The loop keeps one of every id it has not met before. -/
theorem idCount_removeDuplicatesLoop (id : UInt64) (l : List AllocationToSave) :
    ∀ uniqueIDs, idCount id (removeDuplicatesLoop uniqueIDs l)
      = if id ∈ uniqueIDs then 0 else min 1 (idCount id l) := by
  induction l with
  | nil =>
      intro uniqueIDs
      simp [removeDuplicatesLoop, idCount]
  | cons a l ih =>
      intro uniqueIDs
      unfold removeDuplicatesLoop
      by_cases ha : a.uniqueID ∈ uniqueIDs
      · rw [if_pos ha, ih, idCount_cons]
        by_cases hid : id ∈ uniqueIDs
        · rw [if_pos hid, if_pos hid]
        · have hne : a.uniqueID ≠ id := fun h => hid (h ▸ ha)
          rw [if_neg hne, Nat.add_zero]
      · rw [if_neg ha, idCount_cons, idCount_cons, ih]
        by_cases hid : a.uniqueID = id
        · rw [← hid, if_pos (Finset.mem_insert_self _ _), if_neg ha, if_pos rfl]
          omega
        · have hiff : id ∈ insert a.uniqueID uniqueIDs ↔ id ∈ uniqueIDs := by
            rw [Finset.mem_insert]
            exact or_iff_right fun h => hid h.symm
          rw [if_neg hid]
          simp only [hiff, Nat.add_zero]

theorem idCount_removeDuplicatesFromSet (id : UInt64) (l : List AllocationToSave) :
    idCount id (removeDuplicatesFromSet l) = min 1 (idCount id l) := by
  unfold removeDuplicatesFromSet
  rw [idCount_removeDuplicatesLoop, if_neg (Finset.notMem_empty id)]

/-- Erasing the first allocation with an id takes one of that id and
none of the others. -/
theorem idCount_eraseP (id k : UInt64) (l : List AllocationToSave)
    (h : (l.any fun a => k == a.uniqueID) = true) :
    idCount id (l.eraseP fun a => k == a.uniqueID)
      = if k = id then idCount id l - 1 else idCount id l := by
  induction l with
  | nil => cases h
  | cons a l ih =>
      by_cases ha : k = a.uniqueID
      · rw [List.eraseP_cons_of_pos (by simp [ha]), idCount_cons, ← ha]
        by_cases hid : k = id
        · rw [if_pos hid, if_pos hid]
          omega
        · rw [if_neg hid, if_neg hid, Nat.add_zero]
      · have hany : (l.any fun a => k == a.uniqueID) = true := by
          simpa [ha] using h
        rw [List.eraseP_cons_of_neg (by simp [ha]), idCount_cons, idCount_cons, ih hany]
        by_cases hid : k = id
        · have hne : ¬ a.uniqueID = id := fun h => ha (hid.trans h.symm)
          rw [if_pos hid, if_pos hid, if_neg hne]
          omega
        · rw [if_neg hid, if_neg hid]

/-- The loops of `fixSet`, counted: as many of an id go as both lists
have, and as many are to be added. -/
theorem idCount_matchLoop (id : UInt64) (l₁ : List AllocationToSave) :
    ∀ l₂, idCount id (matchLoop l₁ l₂).allocations1
          = idCount id l₁ - min (idCount id l₁) (idCount id l₂)
        ∧ idCount id (matchLoop l₁ l₂).allocations2
          = idCount id l₂ - min (idCount id l₁) (idCount id l₂)
        ∧ idCount id (matchLoop l₁ l₂).allocationsToAdd
          = min (idCount id l₁) (idCount id l₂) := by
  induction l₁ with
  | nil =>
      intro l₂
      simp [matchLoop, idCount]
  | cons a l₁ ih =>
      intro l₂
      simp only [matchLoop]
      by_cases hany : (l₂.any fun b => a.uniqueID == b.uniqueID) = true
      · obtain ⟨h₁, h₂, h₃⟩ := ih (l₂.eraseP fun b => a.uniqueID == b.uniqueID)
        rw [idCount_eraseP id a.uniqueID l₂ hany] at h₁ h₂ h₃
        rw [if_pos hany, idCount_cons, idCount_cons, h₁, h₂, h₃]
        by_cases hid : a.uniqueID = id
        · have hpos : 0 < idCount id l₂ := by
            obtain ⟨b, hb, heq⟩ := List.any_eq_true.mp hany
            exact idCount_pos_of_mem hb ((beq_iff_eq.mp heq).symm.trans hid)
          simp only [if_pos hid]
          omega
        · simp only [if_neg hid]
          omega
      · obtain ⟨h₁, h₂, h₃⟩ := ih l₂
        rw [if_neg hany, idCount_cons, idCount_cons, h₁, h₂, h₃]
        by_cases hid : a.uniqueID = id
        · have hzero : idCount id l₂ = 0 := by
            unfold idCount
            rw [List.countP_eq_zero]
            intro b hb heq
            apply hany
            rw [List.any_eq_true]
            exact ⟨b, hb, beq_iff_eq.mpr (hid.trans (beq_iff_eq.mp heq).symm)⟩
          simp only [if_pos hid]
          omega
        · simp only [if_neg hid]
          omega

/-- What a `fixSet` call does to the numbers of one id. -/
def passCounts (n : PerSet Nat) (p : Pass) : PerSet Nat :=
  let m := min (n.get p.src1) (n.get p.src2)
  let n' := (n.set p.src1 (n.get p.src1 - m)).set p.src2 (n.get p.src2 - m)
  n'.set p.dst (n'.get p.dst + m)

theorem counts_fixSet (id : UInt64) (sets : PerSet (List AllocationToSave)) (p : Pass) :
    counts id (fixSet sets p) = passCounts (counts id sets) p := by
  obtain ⟨h₁, h₂, h₃⟩ := idCount_matchLoop id (sets.get p.src1) (sets.get p.src2)
  unfold counts fixSet passCounts
  simp only [PerSet.map_set, PerSet.get_map, PerSet.get_set, idCount_append, h₁, h₂, h₃]
  congr 2
  split
  · exact h₂
  · split
    · exact h₁
    · rfl

/-- The passes reach the counts one id at a time. -/
theorem counts_passes (id : UInt64) (ps : List Pass) :
    ∀ sets, counts id (ps.foldl fixSet sets) = ps.foldl passCounts (counts id sets) := by
  induction ps with
  | nil =>
      intro sets
      rfl
  | cons p ps ih =>
      intro sets
      rw [List.foldl_cons, List.foldl_cons, ih, counts_fixSet]

-- ============================================================= spreads

/-- In which of the seven sets an id is. -/
def spread (sets : PerSet (List AllocationToSave)) (id : UInt64) : PerSet Bool :=
  sets.map fun allocations => decide (0 < idCount id allocations)

theorem get_spread {sets : PerSet (List AllocationToSave)} {id : UInt64} {c : StateClass} :
    (spread sets id).get c = true ↔ Saved sets c id := by
  unfold spread
  rw [PerSet.get_map, decide_eq_true_iff, saved_iff]

/-- What is left of an id that was in the sets of `b`, once each. -/
def finalCounts (b : PerSet Bool) : PerSet Nat :=
  (passes.foldl passCounts (b.map Bool.toNat)).map (min 1)

/-- `main` on one state. -/
def mainSets (sets : PerSet (List AllocationToSave)) : PerSet (List AllocationToSave) :=
  (passes.foldl fixSet (sets.map removeDuplicatesFromSet)).map removeDuplicatesFromSet

theorem map_counts {f : List AllocationToSave → List AllocationToSave} {g : Nat → Nat} {id : UInt64}
    (h : ∀ l, idCount id (f l) = g (idCount id l)) (sets : PerSet (List AllocationToSave)) :
    counts id (sets.map f) = (counts id sets).map g := by
  unfold counts PerSet.map
  simp only [h]

theorem counts_mainSets (id : UInt64) (sets : PerSet (List AllocationToSave)) :
    counts id (mainSets sets) = finalCounts (spread sets id) := by
  have honce : counts id (sets.map removeDuplicatesFromSet) = (spread sets id).map Bool.toNat := by
    have hmin : ∀ n : Nat, min 1 n = (decide (0 < n)).toNat := by
      intro n
      cases n with
      | zero => rfl
      | succ n => simp
    rw [map_counts (idCount_removeDuplicatesFromSet id)]
    unfold counts spread PerSet.map
    simp only [hmin]
  unfold mainSets finalCounts
  rw [map_counts (idCount_removeDuplicatesFromSet id), counts_passes, honce]

/-- The join of the sets of a spread. -/
def joinUsage (b : PerSet Bool) : Usage :=
  ((commitOrder.filter b.get).map StateClass.usage).foldr (· ⊔ ·) ⊥

theorem isLUB_foldr_sup (us : List Usage) : IsLUB {u | u ∈ us} (us.foldr (· ⊔ ·) ⊥) := by
  induction us with
  | nil =>
      have hset : {u | u ∈ ([] : List Usage)} = ∅ := by
        ext u
        simp
      rw [hset]
      exact isLUB_empty
  | cons u us ih =>
      have hset : {v | v ∈ u :: us} = insert u {v | v ∈ us} := by
        ext v
        simp
      rw [hset]
      exact ih.insert u

theorem isLUB_joinUsage (b : PerSet Bool) :
    IsLUB {u | ∃ c, b.get c = true ∧ c.usage = u} (joinUsage b) := by
  have hset : {u | ∃ c, b.get c = true ∧ StateClass.usage c = u}
      = {u | u ∈ (commitOrder.filter b.get).map StateClass.usage} := by
    ext u
    simp [mem_commitOrder]
  rw [hset]
  exact isLUB_foldr_sup _

/-- The numbers of an id that is in the set `c` alone, once. -/
def onlyIn (c : StateClass) : PerSet Nat := (PerSet.mk 0 0 0 0 0 0 0).set c 1

/-- A spread that a copy survives in a second set. -/
def leftBehind (b : PerSet Bool) : Bool :=
  (b.input && b.output && b.io && !b.co && !b.tout && (b.cio != b.tio))
    || (b.co && b.cio && b.tio && !b.tout && (b.input || b.io))
    || (b.input && b.io && b.co && b.tout && b.cio && !b.tio)

/-- All 128 spreads: the id ends in the join of its sets, once, unless
the spread is one of the ten that leave a copy behind. -/
theorem finalCounts_eq (b : PerSet Bool) :
    (finalCounts b
        = if commitOrder.any b.get then onlyIn (.ofUsage (joinUsage b)) else .mk 0 0 0 0 0 0 0)
      ↔ leftBehind b = false := by
  obtain ⟨i, o, io, co, t, cio, tio⟩ := b
  revert i o io co t cio tio
  decide +kernel

/-- The join of some sets is again a set. -/
theorem usage_joinUsage (b : PerSet Bool) (h : commitOrder.any b.get = true) :
    (StateClass.ofUsage (joinUsage b)).usage = joinUsage b := by
  obtain ⟨i, o, io, co, t, cio, tio⟩ := b
  revert i o io co t cio tio
  decide +kernel

-- ========================================================== the result

/-- The purpose of the post-processing, for one id: an id of the input
ends in one set, once, and the set is the join of the sets it was in;
no other id appears. -/
def JoinedAt (before after : PerSet (List AllocationToSave)) (id : UInt64) : Prop :=
  ((∃ c, Saved before c id) →
      ∃ c, IsLUB {u | ∃ d, Saved before d id ∧ d.usage = u} c.usage
        ∧ ∀ d, idCount id (after.get d) = if d = c then 1 else 0)
    ∧ ((¬ ∃ c, Saved before c id) → ∀ d, idCount id (after.get d) = 0)

/-- What post-processing should make of a state. -/
structure Joined (before after : StateToSave) : Prop where
  joined : ∀ id, JoinedAt before.sets after.sets id
  sane : sanityCheck after = false

/-- A copy of the id stays behind. The id was in I, O and IO, in no
other output set but exactly one of CIO and TIO; or in CO, CIO and TIO
and in I or IO, but not in TO; or in I, IO, CO, TO and CIO but not in
TIO. -/
def LeftBehind (sets : PerSet (List AllocationToSave)) (id : UInt64) : Prop :=
  (Saved sets .input id ∧ Saved sets .output id ∧ Saved sets .io id
      ∧ ¬ Saved sets .co id ∧ ¬ Saved sets .to id ∧ ¬ (Saved sets .cio id ↔ Saved sets .tio id))
    ∨ (Saved sets .co id ∧ Saved sets .cio id ∧ Saved sets .tio id
      ∧ ¬ Saved sets .to id ∧ (Saved sets .input id ∨ Saved sets .io id))
    ∨ (Saved sets .input id ∧ Saved sets .io id ∧ Saved sets .co id ∧ Saved sets .to id
      ∧ Saved sets .cio id ∧ ¬ Saved sets .tio id)

theorem leftBehind_spread {sets : PerSet (List AllocationToSave)} {id : UInt64} :
    leftBehind (spread sets id) = true ↔ LeftBehind sets id := by
  have h : ∀ c, Saved sets c id ↔ (spread sets id).get c = true := fun c => get_spread.symm
  have hbne : ∀ a b : Bool, (a != b) = true ↔ ¬ (a = true ↔ b = true) := by decide
  unfold LeftBehind leftBehind
  simp only [h, PerSet.get, Bool.or_eq_true, Bool.and_eq_true, Bool.not_eq_true', hbne, or_assoc,
    and_assoc, Bool.not_eq_true]

theorem get_onlyIn (c d : StateClass) : (onlyIn c).get d = if d = c then 1 else 0 := by
  unfold onlyIn
  rw [PerSet.get_set]
  split
  · rfl
  · cases d with
    | _ => rfl

theorem ofUsage_usage (c : StateClass) : StateClass.ofUsage c.usage = c := by
  cases c with
  | _ => rfl

theorem idCount_mainSets (sets : PerSet (List AllocationToSave)) (id : UInt64) (c : StateClass) :
    idCount id ((mainSets sets).get c) = (finalCounts (spread sets id)).get c := by
  rw [← counts_mainSets, counts, PerSet.get_map]

theorem any_spread {sets : PerSet (List AllocationToSave)} {id : UInt64} :
    commitOrder.any (spread sets id).get = true ↔ ∃ c, Saved sets c id := by
  rw [List.any_eq_true]
  constructor
  · intro h
    obtain ⟨c, _, hc⟩ := h
    exact ⟨c, get_spread.mp hc⟩
  · intro h
    obtain ⟨c, hc⟩ := h
    exact ⟨c, mem_commitOrder c, get_spread.mpr hc⟩

/-- One id: it reaches the join of its sets exactly when no copy stays
behind. -/
theorem joinedAt_mainSets (sets : PerSet (List AllocationToSave)) (id : UInt64) :
    JoinedAt sets (mainSets sets) id ↔ ¬ LeftBehind sets id := by
  have hlub : IsLUB {u | ∃ d, Saved sets d id ∧ StateClass.usage d = u}
      (joinUsage (spread sets id)) := by
    have h := isLUB_joinUsage (spread sets id)
    simp only [get_spread] at h
    exact h
  rw [← leftBehind_spread, Bool.not_eq_true, ← finalCounts_eq]
  unfold JoinedAt
  simp only [idCount_mainSets]
  by_cases hsome : ∃ c, Saved sets c id
  · have hany := any_spread.mpr hsome
    rw [if_pos hany]
    constructor
    · intro h
      obtain ⟨c, hc, hcounts⟩ := h.1 hsome
      have hjoin : StateClass.ofUsage (joinUsage (spread sets id)) = c := by
        rw [← hc.unique hlub, ofUsage_usage]
      apply PerSet.ext_get
      intro d
      rw [hcounts d, hjoin, get_onlyIn]
    · intro h
      refine ⟨fun _ => ⟨StateClass.ofUsage (joinUsage (spread sets id)), ?_, fun d => ?_⟩,
        fun hnone => absurd hsome hnone⟩
      · rw [usage_joinUsage _ hany]
        exact hlub
      · rw [h, get_onlyIn]
  · have hany : ¬ commitOrder.any (spread sets id).get = true := fun h => hsome (any_spread.mp h)
    rw [if_neg hany]
    constructor
    · intro h
      apply PerSet.ext_get
      intro d
      rw [h.2 hsome d]
      cases d with
      | _ => rfl
    · intro h
      refine ⟨fun hs => absurd hs hsome, fun _ d => ?_⟩
      rw [h]
      cases d with
      | _ => rfl

/-- Sets that hold every id at most in one place pass the check. -/
theorem sanityCheck_of_joinedAt {before : PerSet (List AllocationToSave)} {after : StateToSave}
    (h : ∀ id, JoinedAt before after.sets id) : sanityCheck after = false := by
  have hpairs : ∀ p ∈ checkedPairs, p.1 ≠ p.2 := by decide
  rw [Bool.eq_false_iff]
  intro hcheck
  obtain ⟨p, hp, hinter⟩ := List.any_eq_true.mp hcheck
  obtain ⟨a, ha, hb⟩ := List.any_eq_true.mp hinter
  obtain ⟨b, hb, heq⟩ := List.any_eq_true.mp hb
  have hfst : 0 < idCount a.uniqueID (after.sets.get p.1) := idCount_pos_of_mem ha rfl
  have hsnd : 0 < idCount a.uniqueID (after.sets.get p.2) :=
    idCount_pos_of_mem hb (beq_iff_eq.mp heq).symm
  by_cases hsome : ∃ c, Saved before c a.uniqueID
  · obtain ⟨c, _, hcounts⟩ := (h a.uniqueID).1 hsome
    rw [hcounts] at hfst hsnd
    have h₁ : p.1 = c := by
      by_contra hne
      rw [if_neg hne] at hfst
      omega
    have h₂ : p.2 = c := by
      by_contra hne
      rw [if_neg hne] at hsnd
      omega
    exact hpairs p hp (h₁.trans h₂.symm)
  · have hzero := (h a.uniqueID).2 hsome p.1
    omega

theorem main_states (statesToSave : StatesToSave) :
    (main statesToSave).states
      = statesToSave.states.map fun elem =>
          (elem.1, { elem.2 with sets := mainSets elem.2.sets }) := by
  unfold main removeDuplicates fixSetsAll fixSets mainSets
  simp only [List.map_map]
  rfl

/-- Every state of a saved run, every id: post-processing computes the
join, and the sanity check passes, exactly when no id is spread so that
a copy stays behind. -/
theorem joined_main_iff (statesToSave : StatesToSave) :
    List.Forall₂ (fun before after => after.1 = before.1 ∧ Joined before.2 after.2)
        statesToSave.states (main statesToSave).states
      ↔ ∀ elem ∈ statesToSave.states, ∀ id, ¬ LeftBehind elem.2.sets id := by
  rw [main_states, List.forall₂_map_right_iff, List.forall₂_same]
  constructor
  · intro h elem helem id
    exact (joinedAt_mainSets elem.2.sets id).mp ((h elem helem).2.joined id)
  · intro h elem helem
    have hjoined : ∀ id, JoinedAt elem.2.sets (mainSets elem.2.sets) id := fun id =>
      (joinedAt_mainSets elem.2.sets id).mpr (h elem helem id)
    exact ⟨rfl, hjoined, sanityCheck_of_joinedAt hjoined⟩

/-- An allocation of four words. The first is only read and the second
only written; the third is read and then written by one iteration; the
fourth too, and later iterations overwrite it. -/
def fourWords (offset : UInt64) : AllocationToSave where
  trace := none
  staticID := 7
  uniqueID := 1
  pointer := 4096
  length := 32
  offsets := {offset}
  uses := []
  isDirectState := false

/-- The state it is saved in. -/
def fourWordsState : StateToSave where
  functionName := "main"
  lineNumber := 12
  sets := ⟨[fourWords 0], [fourWords 8], [fourWords 16], [], [], [fourWords 24], []⟩

theorem not_joined_fourWords :
    ¬ List.Forall₂ (fun before after => after.1 = before.1 ∧ Joined before.2 after.2)
      [(1, fourWordsState)] (main ⟨[(1, fourWordsState)]⟩).states := by
  have hleft : LeftBehind fourWordsState.sets 1 := by
    rw [← leftBehind_spread]
    decide
  rw [main_states]
  intro h
  obtain ⟨⟨_, hjoined⟩, _⟩ := List.forall₂_cons.mp h
  exact (joinedAt_mainSets fourWordsState.sets 1).mp (hjoined.joined 1) hleft

end Carmot.PrettyPrint
