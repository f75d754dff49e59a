/-
What the saved form of an allocation says about the bytes marked.

`processStateRegionSet` puts the two ends of a region into the set that
also takes the single offsets of `processAddToState`, and sets one flag.
So after the report the saved offsets are the ends of all marks, and the
saved flag says whether there was a region (`mem_savedForm_fst`,
`savedForm_snd`). Which offsets lie between the ends is then a question
about marks on a line (Lib/Spans.lean): a mark has to start in the
block, a region may end anywhere.
-/
import Mathlib.Data.Nat.Basic
import Carmot.Lib.Range
import Carmot.Lib.Spans
import Carmot.Texas.Proofs.Frees
import Carmot.Texas.Proofs.Lookup
import Carmot.Wrapper.Save

namespace Carmot.Wrapper

open Carmot.Texas
open Carmot.Lib (Range Mark)

-- =============================================================== the marks

/-- The entry marks the allocation, for the state and the class: as a
region, or as a single offset. -/
def MarksFor (rt : Runtime) (a : AllocId) (s : StateId) (c : StateClass) (e : ShadowEntry) : Prop :=
  rt.find e.ptr = some a
    ∧ ((e.operation = .stateRegionSet ∧ e.stateToSet = c ∧ e.affiliatedState = some s)
      ∨ (e.operation = .stateAdd c ∧ e.sizeState = .statePtr s))

/-- The mark it makes, in offsets. -/
def markOf (pointer : Addr) (e : ShadowEntry) : Mark Nat :=
  let beginningOffset := getOffset pointer e.ptr
  if e.operation = .stateRegionSet then
    .span beginningOffset.toNat (beginningOffset + e.sizeState.getSize).toNat
  else .point beginningOffset.toNat

/-- The flag of a state's record. -/
def regionFlag (rt : Runtime) (a : AllocId) (s : StateId) : Bool :=
  (((rt.allocs a).stateCommitInfoMap s).map (·.regionBasedOffsets)).getD false

/-- The pair that is saved for the allocation in the state's set: the
offsets, and whether regions were set. -/
def savedForm (env : Env) (stateMap : List StateId) (rt : Runtime) (a : AllocId) (s : StateId)
    (c : StateClass) : Finset UInt64 × Bool :=
  let rt := reportStatistics env stateMap rt
  (((rt.sets s).finals c a).getD ∅, regionFlag rt a s)

theorem bind_eq_ok {ε α β : Type} {x : Except ε α} {f : α → Except ε β} {r : β}
    (h : (x >>= f) = .ok r) : ∃ a, x = .ok a ∧ f a = .ok r := by
  cases x with
  | error err => cases h
  | ok a => exact ⟨a, rfl, h⟩

/-- It is what `getAllocationToSave` writes. -/
theorem savedForm_of_saved {env : Env} {stateMap : List StateId} {rt : Runtime} {a : AllocId}
    {s : StateId} {c : StateClass} {o : SaveOptions} {cs : Callstacks} {offsets : Finset UInt64}
    {saved : AllocationToSave}
    (hfinal : ((reportStatistics env stateMap rt).sets s).finals c a = some offsets)
    (hsaved : getAllocationToSave o cs (reportStatistics env stateMap rt) a offsets s = .ok saved) :
    savedForm env stateMap rt a s c = (saved.offsets, saved.isDirectState) := by
  unfold savedForm regionFlag
  dsimp only
  generalize reportStatistics env stateMap rt = rt' at hfinal hsaved ⊢
  rw [hfinal]
  unfold getAllocationToSave at hsaved
  obtain ⟨⟨trace, staticID⟩, -, hsaved⟩ := bind_eq_ok hsaved
  cases hrec : (rt'.allocs a).stateCommitInfoMap s with
  | none =>
      simp only [hrec] at hsaved
      cases hsaved
  | some info =>
      simp only [hrec] at hsaved
      split at hsaved
      · cases hsaved
        rfl
      · split at hsaved
        · cases hsaved
          rfl
        · obtain ⟨uses, -, hsaved⟩ := bind_eq_ok hsaved
          cases hsaved
          rfl

-- ================================================================ the flag

section Flag

variable {env : Env} {rt : Runtime} {a b : AllocId} {s t : StateId} {e : ShadowEntry}

theorem regionFlag_setInfo (rt : Runtime) (a b : AllocId) (s t : StateId) (info : StateCommitInfo) :
    regionFlag (rt.setInfo a s info) b t
      = if b = a ∧ t = s then info.regionBasedOffsets else regionFlag rt b t := by
  unfold regionFlag Runtime.setInfo Runtime.setAlloc
  by_cases hb : b = a
  · subst hb
    by_cases ht : t = s
    · subst ht
      simp
    · simp [ht]
  · simp [hb]

/-- An access leaves the flag, and a new record has none. -/
theorem regionFlag_recordAccess :
    regionFlag (recordAccess e a s rt) b t = regionFlag rt b t := by
  unfold recordAccess
  dsimp only
  rw [regionFlag_setInfo]
  by_cases h : b = a ∧ t = s
  · rw [if_pos h, h.1, h.2]
    unfold regionFlag
    cases hinfo : (rt.allocs a).stateCommitInfoMap s with
    | none =>
        split
        · rfl
        · rfl
    | some info =>
        split
        · rfl
        · rfl
  · rw [if_neg h]

/-- A region sets it. -/
theorem regionFlag_recordRegion :
    regionFlag (recordRegion e a s rt) b t
      = if b = a ∧ t = s then true else regionFlag rt b t := by
  unfold recordRegion
  dsimp only
  rw [regionFlag_setInfo]
  rfl

theorem regionFlag_stampFreshness (a b : AllocId) (t : StateId) (rt : Runtime) :
    regionFlag (stampFreshness a rt) b t = regionFlag rt b t := by
  unfold regionFlag stampFreshness Runtime.setAlloc
  by_cases hb : b = a
  · simp [hb]
  · simp [hb]

theorem regionFlag_processAddToState (chain : List StateId) :
    ∀ rt : Runtime, regionFlag (processAddToState env e rt chain) b t = regionFlag rt b t := by
  induction chain with
  | nil => intro rt; rfl
  | cons s parents ih =>
      intro rt
      unfold processAddToState
      cases rt.find e.ptr with
      | none => rfl
      | some a =>
          have hstamp : regionFlag (if env.options.trackCycles then stampFreshness a rt else rt) b t
              = regionFlag rt b t := by
            split
            · exact regionFlag_stampFreshness a b t rt
            · rfl
          dsimp only
          split
          · exact hstamp
          · rw [ih, regionFlag_recordAccess, hstamp]

theorem regionFlag_processStateRegionSet (chain : List StateId) :
    ∀ rt : Runtime, rt.find e.ptr = some a →
      regionFlag (processStateRegionSet e rt chain) a t
        = (decide (t ∈ chain) || regionFlag rt a t) := by
  induction chain with
  | nil => intro rt _; rfl
  | cons s parents ih =>
      intro rt hfind
      have hfind' : (recordRegion e a s rt).find e.ptr = some a :=
        ((sameTable_recordRegion e a s).find e.ptr).trans hfind
      unfold processStateRegionSet
      rw [hfind]
      dsimp only
      rw [ih _ hfind', regionFlag_recordRegion]
      by_cases ht : t = s
      · simp [ht]
      · simp [ht]

/-- Committing clears the record's sets, not its flag. -/
theorem regionFlag_commitStateInfo (tree : StateTree) (a b : AllocId) (t : StateId) (rt : Runtime) :
    regionFlag (commitStateInfo tree none rt a) b t = regionFlag rt b t := by
  have hkept : keptInfo tree (rt.allocs a) none t = (rt.allocs a).stateCommitInfoMap t :=
    keptInfo_of_not_skips (not_skips_none _ t)
  unfold regionFlag commitStateInfo
  by_cases hb : b = a
  · subst hb
    simp only [Function.update_self, hkept, Option.map_map]
    rfl
  · simp only [Function.update_of_ne hb]

/-- The report changes no flag. -/
theorem regionFlag_reportStatistics (env : Env) (stateMap : List StateId) (rt : Runtime)
    (b : AllocId) (t : StateId) :
    regionFlag (reportStatistics env stateMap rt) b t = regionFlag rt b t := by
  have hall : ∀ (as : List AllocId) (rt : Runtime),
      regionFlag (as.foldl (commitStateInfo env.tree none) rt) b t = regionFlag rt b t := by
    intro as
    induction as with
    | nil => intro rt; rfl
    | cons a as ih => intro rt; exact (ih _).trans (regionFlag_commitStateInfo env.tree a b t rt)
  have hstates : ∀ (ss : List StateId) (rt : Runtime),
      regionFlag (ss.foldl commitState rt) b t = regionFlag rt b t := by
    intro ss
    induction ss with
    | nil => intro rt; rfl
    | cons s ss ih => intro rt; exact ih _
  exact (hstates stateMap _).trans (hall rt.allocationMap.objects rt)

end Flag

-- ========================================================== a run of marks

/-- Before the first mark: the allocation is the block `r`, nothing is
recorded for the state and the class, and the state has no record. -/
structure Unmarked (rt : Runtime) (a : AllocId) (s : StateId) (c : StateClass) (r : Range) :
    Prop where
  inv : TableInv rt
  pointer : (rt.allocs a).pointer = r.base
  find : ∀ p, rt.find p = some a ↔ r.Contains p
  fresh : ∀ off, ¬ Settled rt a s (.offset c off)
  noRecord : (rt.allocs a).stateCommitInfoMap s = none

section Run

variable {env : Env} {rt : Runtime} {a : AllocId} {s : StateId} {c : StateClass} {r : Range}
  {es : List ShadowEntry} {e : ShadowEntry}

/-- Marks leave the table alone. -/
theorem MarksFor.operation (h : MarksFor rt a s c e) :
    e.operation ≠ .allocAdd ∧ e.operation ≠ .allocFree := by
  rcases h.2 with h | h
  · rw [h.1]
    exact ⟨by decide, by decide⟩
  · rw [h.1]
    exact ⟨by simp, by simp⟩

variable (env) in
theorem sameTable_marks (hes : ∀ e ∈ es, MarksFor rt a s c e) :
    SameTable rt (processEntries env rt es) := by
  induction es using List.reverseRecOn with
  | nil => exact SameTable.refl rt
  | append_singleton es e ih =>
      have hlast := (hes e (by simp)).operation
      rw [processEntries_concat]
      exact (ih fun e' he' => hes e' (by simp [he'])).trans
        (sameTable_processEntry env _ hlast.1 hlast.2)

/-- One mark records its ends. -/
theorem records_mark_iff (h : MarksFor rt a s c e) (x : UInt64) :
    Records env rt e a s (.offset c x) ↔ x.toNat ∈ (markOf (rt.allocs a).pointer e).ends := by
  have hself : s ∈ env.tree.chain? (some s) := env.tree.self_mem_chain s
  rcases h with ⟨hfind, ⟨hop, hset, haff⟩ | ⟨hop, hsize⟩⟩
  · simp [-UInt64.toNat_add, Records, hop, hfind, haff, hself, RegionItem, hset, markOf, Mark.ends,
      UInt64.toNat_inj]
  · simp [Records, hop, hfind, hsize, SizeState.getStatePtr, hself, AccessItem, markOf, Mark.ends,
      UInt64.toNat_inj, Operation.isAccess, Operation.access?, getOffset]

/-- Marks that came before change nothing for the next one. -/
theorem MarksFor.of_sameTable {rt' : Runtime} (h : MarksFor rt a s c e) (hsame : SameTable rt rt') :
    MarksFor rt' a s c e :=
  ⟨(hsame.find e.ptr).trans h.1, h.2⟩

/-- A run of marks records the ends of all. -/
theorem settled_marks (hinv : TableInv rt) (hfresh : ∀ off, ¬ Settled rt a s (.offset c off))
    (hes : ∀ e ∈ es, MarksFor rt a s c e) (x : UInt64) :
    Settled (processEntries env rt es) a s (.offset c x) ↔
      Mark.IsEnd (es.map (markOf (rt.allocs a).pointer)) x.toNat := by
  induction es using List.reverseRecOn with
  | nil =>
      refine iff_of_false (hfresh x) ?_
      rintro ⟨m, hm, -⟩
      exact absurd hm List.not_mem_nil
  | append_singleton es e ih =>
      have hes' : ∀ e ∈ es, MarksFor rt a s c e := fun e' he' => hes e' (by simp [he'])
      have hsame := sameTable_marks env hes'
      have hmark := (hes e (by simp)).of_sameTable hsame
      have hno : ¬ Erases env (processEntries env rt es) e a s := fun h => hmark.operation.2 h.1
      have hends : Mark.IsEnd ((es ++ [e]).map (markOf (rt.allocs a).pointer)) x.toNat ↔
          Mark.IsEnd (es.map (markOf (rt.allocs a).pointer)) x.toNat
            ∨ x.toNat ∈ (markOf (rt.allocs a).pointer e).ends := by
        unfold Mark.IsEnd
        simp [or_and_right, exists_or]
      rw [hends, ← ih hes', processEntries_concat,
        settled_processEntry (tableInv_run env es hinv), records_mark_iff hmark, hsame.pointer]
      unfold Settled
      tauto

/-- The flag says whether there was a region. -/
theorem regionFlag_marks (hnone : regionFlag rt a s = false) (hes : ∀ e ∈ es, MarksFor rt a s c e) :
    regionFlag (processEntries env rt es) a s
      = (es.map (markOf (rt.allocs a).pointer)).any Mark.isSpan := by
  induction es using List.reverseRecOn with
  | nil => exact hnone
  | append_singleton es e ih =>
      have hes' : ∀ e ∈ es, MarksFor rt a s c e := fun e' he' => hes e' (by simp [he'])
      have hmark := (hes e (by simp)).of_sameTable (sameTable_marks env hes')
      have hself : s ∈ env.tree.chain? (some s) := env.tree.self_mem_chain s
      rw [processEntries_concat, List.map_append, List.any_append, ← ih hes']
      rcases hmark with ⟨hfind, ⟨hop, -, haff⟩ | ⟨hop, -⟩⟩
      · rw [processEntry_regionSet _ hop, regionFlag_processStateRegionSet _ _ hfind, haff]
        simp [hself, markOf, hop, Mark.isSpan]
      · rw [processEntry_access _ (Or.inr ⟨c, hop⟩), regionFlag_processAddToState]
        simp [markOf, hop, Mark.isSpan]

end Run

-- ============================================================ the saved form

section Form

variable {env : Env} {stateMap : List StateId} {rt : Runtime} {a : AllocId} {s : StateId}
  {c : StateClass} {r : Range} {es : List ShadowEntry}

theorem mem_savedForm_fst (hun : Unmarked rt a s c r) (hs : s ∈ stateMap)
    (hes : ∀ e ∈ es, MarksFor rt a s c e) (x : UInt64) :
    x ∈ (savedForm env stateMap (processEntries env rt es) a s c).1 ↔
      Mark.IsEnd (es.map (markOf r.base)) x.toNat := by
  rw [← hun.pointer, ← settled_marks hun.inv hun.fresh hes,
    ← final_reportStatistics (tableInv_run env es hun.inv) hs]
  unfold savedForm Final StateSets.FinalHolds AllocationsSet.Holds
  dsimp only
  cases ((reportStatistics env stateMap (processEntries env rt es)).sets s).finals c a with
  | none => simp
  | some offs => simp

theorem savedForm_snd (hun : Unmarked rt a s c r) (hes : ∀ e ∈ es, MarksFor rt a s c e) :
    (savedForm env stateMap (processEntries env rt es) a s c).2
      = (es.map (markOf r.base)).any Mark.isSpan := by
  have hnone : regionFlag rt a s = false := by
    unfold regionFlag
    rw [hun.noRecord]
    rfl
  rw [← hun.pointer, ← regionFlag_marks hnone hes]
  exact regionFlag_reportStatistics env stateMap _ a s

/-- What the marks of a run cover, in offsets. -/
def coveredOffsets (pointer : Addr) (es : List ShadowEntry) : Set Nat :=
  { z | Mark.Covered (es.map (markOf pointer)) z }

/-- Every end is a 64-bit offset. -/
theorem lt_of_isEnd {pointer : Addr} {z : Nat} (h : Mark.IsEnd (es.map (markOf pointer)) z) :
    z < 2 ^ 64 := by
  obtain ⟨m, hm, hz⟩ := h
  obtain ⟨e, -, rfl⟩ := List.mem_map.mp hm
  unfold markOf at hz
  dsimp only at hz
  split at hz
  · rcases List.mem_cons.mp hz with rfl | hz
    · exact UInt64.toNat_lt _
    · rw [List.mem_singleton.mp hz]
      exact UInt64.toNat_lt _
  · rw [List.mem_singleton.mp hz]
    exact UInt64.toNat_lt _

/-- Two runs are saved the same when their ends and flags are. -/
theorem savedForm_eq_iff {es' : List ShadowEntry} (hun : Unmarked rt a s c r) (hs : s ∈ stateMap)
    (hes : ∀ e ∈ es, MarksFor rt a s c e) (hes' : ∀ e ∈ es', MarksFor rt a s c e) :
    savedForm env stateMap (processEntries env rt es) a s c
        = savedForm env stateMap (processEntries env rt es') a s c ↔
      (∀ z, Mark.IsEnd (es.map (markOf r.base)) z ↔ Mark.IsEnd (es'.map (markOf r.base)) z)
        ∧ (es.map (markOf r.base)).any Mark.isSpan = (es'.map (markOf r.base)).any Mark.isSpan := by
  rw [Prod.ext_iff, savedForm_snd hun hes, savedForm_snd hun hes', Finset.ext_iff]
  simp only [mem_savedForm_fst hun hs hes, mem_savedForm_fst hun hs hes']
  refine and_congr_left fun _ => ⟨fun h z => ?_, fun h x => h x.toNat⟩
  by_cases hz : z < 2 ^ 64
  · have hx := h (UInt64.ofNat z)
    rwa [UInt64.toNat_ofNat_of_lt' hz] at hx
  · exact iff_of_false (fun hend => hz (lt_of_isEnd hend)) (fun hend => hz (lt_of_isEnd hend))

/-- A mark starts in the block. -/
theorem start_lt (hun : Unmarked rt a s c r) (hes : ∀ e ∈ es, MarksFor rt a s c e) :
    ∀ m ∈ es.map (markOf r.base), m.start < r.length.toNat := by
  intro m hm
  obtain ⟨e, he, rfl⟩ := List.mem_map.mp hm
  have hin : (getOffset r.base e.ptr).toNat < r.length.toNat :=
    UInt64.lt_iff_toNat_lt.mp (Range.sub_base_lt ((hun.find e.ptr).mp (hes e he).1))
  unfold markOf
  dsimp only
  split
  · exact hin
  · exact hin

/-- The entry that makes a given mark. -/
def markEntry (pointer : Addr) (s : StateId) (c : StateClass) : Mark Nat → ShadowEntry
  | .point x =>
      { ShadowEntry.redundant with
        operation := .stateAdd c
        ptr := pointer + UInt64.ofNat x
        sizeState := .statePtr s }
  | .span x y =>
      { ShadowEntry.redundant with
        operation := .stateRegionSet
        ptr := pointer + UInt64.ofNat x
        sizeState := .size (UInt64.ofNat y - UInt64.ofNat x)
        stateToSet := c
        affiliatedState := some s }

theorem markOf_markEntry (pointer : Addr) (s : StateId) (c : StateClass) {m : Mark Nat}
    (hends : ∀ z ∈ m.ends, z < 2 ^ 64) : markOf pointer (markEntry pointer s c m) = m := by
  have hback : ∀ x : UInt64, getOffset pointer (pointer + x) = x := by
    intro x
    show pointer + x - pointer = x
    rw [UInt64.add_comm, UInt64.add_sub_cancel]
  cases m with
  | point x =>
      have hx : x < 2 ^ 64 := hends x (List.mem_singleton_self x)
      have hxn : (UInt64.ofNat x).toNat = x := UInt64.toNat_ofNat_of_lt' hx
      simp only [markOf, markEntry, reduceCtorEq, if_false, hback, hxn]
  | span x y =>
      have hx : x < 2 ^ 64 := hends x (List.mem_cons_self ..)
      have hy : y < 2 ^ 64 := hends y (List.mem_cons_of_mem _ (List.mem_singleton_self y))
      have hsum : UInt64.ofNat x + (UInt64.ofNat y - UInt64.ofNat x) = UInt64.ofNat y := by
        rw [UInt64.add_comm, UInt64.sub_add_cancel]
      have hxn : (UInt64.ofNat x).toNat = x := UInt64.toNat_ofNat_of_lt' hx
      have hyn : (UInt64.ofNat y).toNat = y := UInt64.toNat_ofNat_of_lt' hy
      simp only [markOf, markEntry, if_true, hback, SizeState.getSize, hsum, hxn, hyn]

theorem marksFor_markEntry (hun : Unmarked rt a s c r) {m : Mark Nat}
    (hstart : m.start < r.length.toNat) : MarksFor rt a s c (markEntry r.base s c m) := by
  have hfits := r.fits
  have hin : ∀ x < r.length.toNat, rt.find (r.base + UInt64.ofNat x) = some a := by
    intro x hx
    rw [hun.find, Range.contains_iff, UInt64.toNat_add,
      UInt64.toNat_ofNat_of_lt' (by simp only [UInt64.size] at hfits ⊢; omega),
      Nat.mod_eq_of_lt (by simp only [UInt64.size] at hfits ⊢; omega)]
    omega
  cases m with
  | point x => exact ⟨hin x hstart, Or.inr ⟨rfl, rfl⟩⟩
  | span x y => exact ⟨hin x hstart, Or.inl ⟨rfl, rfl, rfl⟩⟩

/-- The saved form of a run determines the offsets covered exactly when
no region was set, or the offsets recorded in the block leave no gap. -/
theorem savedForm_determines_iff (env : Env) (hun : Unmarked rt a s c r) (hs : s ∈ stateMap)
    (hes : ∀ e ∈ es, MarksFor rt a s c e) :
    (∀ es' : List ShadowEntry, (∀ e ∈ es', MarksFor rt a s c e) →
        coveredOffsets r.base es ≠ coveredOffsets r.base es' →
        savedForm env stateMap (processEntries env rt es) a s c
          ≠ savedForm env stateMap (processEntries env rt es') a s c) ↔
      (∀ e ∈ es, e.operation ≠ .stateRegionSet)
        ∨ Mark.NoGap (· < r.length.toNat) (es.map (markOf r.base)) := by
  have hnospan : (es.map (markOf r.base)).any Mark.isSpan = false ↔
      ∀ e ∈ es, e.operation ≠ .stateRegionSet := by
    rw [List.any_eq_false, List.forall_mem_map]
    refine forall₂_congr fun e _ => not_congr ?_
    by_cases hop : e.operation = .stateRegionSet
    · simp [markOf, hop, Mark.isSpan]
    · simp [markOf, hop, Mark.isSpan]
  rw [← hnospan, ← Mark.covered_determined_iff (fun x y hxy hy => lt_of_le_of_lt hxy hy)
    (start_lt hun hes)]
  constructor
  · intro h ms' hstart hends hspans z
    -- the marks as entries, so that the runs are those of the program
    have hback : (ms'.map (markEntry r.base s c)).map (markOf r.base) = ms' := by
      rw [List.map_map]
      refine (List.map_congr_left fun m hm => ?_).trans (List.map_id ms')
      exact markOf_markEntry r.base s c fun z hz => lt_of_isEnd ((hends z).mpr ⟨m, hm, hz⟩)
    have hmarks : ∀ e ∈ ms'.map (markEntry r.base s c), MarksFor rt a s c e := by
      rw [List.forall_mem_map]
      exact fun m hm => marksFor_markEntry hun (hstart m hm)
    have hsame : coveredOffsets r.base es = coveredOffsets r.base (ms'.map (markEntry r.base s c)) := by
      by_contra hne
      refine h _ hmarks hne ((savedForm_eq_iff hun hs hes hmarks).mpr ?_)
      rw [hback]
      exact ⟨hends, hspans⟩
    have hz := Set.ext_iff.mp hsame z
    unfold coveredOffsets at hz
    rwa [hback] at hz
  · intro h es' hes' hne heq
    obtain ⟨hends, hspans⟩ := (savedForm_eq_iff hun hs hes hes').mp heq
    refine hne (Set.ext fun z => ?_)
    exact h _ (start_lt hun hes') hends hspans z

end Form

/-- A block of 16 bytes. -/
def markBlock : LiveRange := ⟨⟨0x1000, 16, by decide, by decide⟩, 7⟩

/-- The runtime after its allocation. -/
def markRuntime : Runtime :=
  processEntries (Env.ofTree .flat) texasInit [(SlotWrite.allocAdd 0x1000 16 7 none).entry]

theorem unmarked_markRuntime : Unmarked markRuntime 1 0 .output markBlock.toRange := by
  have hrun : AllocatorRun [] [(SlotWrite.allocAdd 0x1000 16 7 none).entry] [markBlock] :=
    .add markBlock rfl rfl rfl rfl (fun r hr => absurd hr List.not_mem_nil) (.nil _)
  obtain ⟨hk, hs⟩ : Keyed markRuntime [markBlock] ∧ Shaped markRuntime [markBlock] :=
    table_run hrun (by decide) (List.pairwise_singleton _ _)
  refine ⟨tableInv_run _ _ tableInv_init, rfl, fun p => ⟨fun h => ?_, fun h => ?_⟩, fun off h => ?_,
    rfl⟩
  · obtain ⟨r, hr, hc, -⟩ := hk.contains_of_find hs (Or.inr (by decide)) h
    exact List.mem_singleton.mp hr ▸ hc
  · exact hk.find_eq hs (List.mem_singleton_self _) h rfl
  · obtain ⟨pre, e, post, heq, hrec, -⟩ := (settled_iff_recorded _ _ _ _ _).mp h
    have he : e ∈ [(SlotWrite.allocAdd 0x1000 16 7 none).entry] := heq ▸ by simp
    cases List.mem_singleton.mp he
    exact hrec

/-- One region over two adjacent offsets. -/
theorem savedForm_determines_adjacent :
    let es := [markEntry 0x1000 0 .output (.span 4 5)]
    ∀ es', (∀ e ∈ es', MarksFor markRuntime 1 0 .output e) →
      coveredOffsets 0x1000 es ≠ coveredOffsets 0x1000 es' →
      savedForm (Env.ofTree .flat) [0] (processEntries (Env.ofTree .flat) markRuntime es) 1 0 .output
        ≠ savedForm (Env.ofTree .flat) [0] (processEntries (Env.ofTree .flat) markRuntime es')
          1 0 .output := by
  intro es
  have hes : ∀ e ∈ es, MarksFor markRuntime 1 0 .output e := by
    intro e he
    cases List.mem_singleton.mp he
    exact marksFor_markEntry unmarked_markRuntime (by decide)
  refine (savedForm_determines_iff (Env.ofTree .flat) unmarked_markRuntime
    (List.mem_singleton_self 0) hes).mpr (Or.inr ?_)
  have hends : ∀ z, Mark.IsEnd (es.map (markOf markBlock.base)) z ↔ z = 4 ∨ z = 5 := by
    intro z
    show Mark.IsEnd [markOf 0x1000 (markEntry 0x1000 0 .output (.span 4 5))] z ↔ _
    rw [markOf_markEntry _ _ _ (by decide)]
    simp [Mark.IsEnd, Mark.ends]
  intro x y z hx hy _ _ hxz hzy
  rw [hends] at hx hy ⊢
  omega

/-- A region with a point past it, and the point before it: the same
three offsets. -/
theorem savedForm_collides :
    let es := [markEntry 0x1000 0 .output (.span 0 4), markEntry 0x1000 0 .output (.point 8)]
    let es' := [markEntry 0x1000 0 .output (.point 0), markEntry 0x1000 0 .output (.span 4 8)]
    (∀ e ∈ es ++ es', MarksFor markRuntime 1 0 .output e)
      ∧ coveredOffsets 0x1000 es ≠ coveredOffsets 0x1000 es'
      ∧ savedForm (Env.ofTree .flat) [0] (processEntries (Env.ofTree .flat) markRuntime es)
          1 0 .output
        = savedForm (Env.ofTree .flat) [0] (processEntries (Env.ofTree .flat) markRuntime es')
          1 0 .output := by
  intro es es'
  refine ⟨fun e he => ?_, fun heq => ?_, by decide⟩
  · simp only [es, es', List.cons_append, List.nil_append, List.mem_cons, List.not_mem_nil,
      or_false] at he
    rcases he with rfl | rfl | rfl | rfl
    · exact marksFor_markEntry unmarked_markRuntime (by decide)
    · exact marksFor_markEntry unmarked_markRuntime (by decide)
    · exact marksFor_markEntry unmarked_markRuntime (by decide)
    · exact marksFor_markEntry unmarked_markRuntime (by decide)
  · have htwo : 2 ∈ coveredOffsets 0x1000 es := ⟨_, List.mem_cons_self .., Or.inl (by decide)⟩
    rw [heq] at htwo
    obtain ⟨m, hm, hcovers⟩ := htwo
    obtain ⟨e, he, rfl⟩ := List.mem_map.mp hm
    rcases List.mem_cons.mp he with rfl | he
    · exact absurd hcovers (by decide)
    · cases List.mem_singleton.mp he
      exact absurd hcovers (by decide)

end Carmot.Wrapper
