/-
The origins of the objects that get into a state's sets.

An object keeps the origin it was created with. All but the sentinel
are created by an `ALLOC_ADD`, with its origin; the sentinel of
`texas_init` is only found under the highest address. So when no entry
records for that address, every object with a record or a key has an
origin that some `ALLOC_ADD` brought (`originInv_run`).
-/
import Mathlib.Algebra.Group.Nat.Defs
import Carmot.Texas.Proofs.Records

namespace Carmot.Texas

open Carmot.Lib (SortedMap)

-- ================================================================ origins

/-- Every object keeps its origin. -/
def SameOrigins (rt rt' : Runtime) : Prop := ∀ a, (rt'.allocs a).origin = (rt.allocs a).origin

section SameOrigins

variable {rt : Runtime}

theorem SameOrigins.trans {rt₁ rt₂ rt₃ : Runtime} (h : SameOrigins rt₁ rt₂)
    (h' : SameOrigins rt₂ rt₃) : SameOrigins rt₁ rt₃ := fun a => (h' a).trans (h a)

theorem SameOrigins.setAlloc (a : AllocId) (alloc : Allocation)
    (h : alloc.origin = (rt.allocs a).origin) : SameOrigins rt (rt.setAlloc a alloc) := by
  intro b
  unfold Runtime.setAlloc
  by_cases hb : b = a
  · subst hb
    simp [h]
  · simp [hb]

theorem sameOrigins_setInfo (a : AllocId) (s : StateId) (info : StateCommitInfo) :
    SameOrigins rt (rt.setInfo a s info) := SameOrigins.setAlloc a _ rfl

theorem sameOrigins_commitStateInfo (tree : StateTree) (skip : Option StateId) (a : AllocId) :
    SameOrigins rt (commitStateInfo tree skip rt a) :=
  SameOrigins.setAlloc a
    { rt.allocs a with
      stateCommitInfoMap := fun s =>
        (keptInfo tree (rt.allocs a) skip s).map StateCommitInfo.cleared } rfl

theorem sameOrigins_foldl_commitStateInfo (tree : StateTree) (as : List AllocId) :
    ∀ rt : Runtime, SameOrigins rt (as.foldl (commitStateInfo tree none) rt) := by
  induction as with
  | nil => intro rt a; rfl
  | cons a as ih =>
      intro rt
      exact (sameOrigins_commitStateInfo tree none a).trans (ih _)

theorem sameOrigins_processAddToState (env : Env) (e : ShadowEntry) (chain : List StateId) :
    ∀ rt : Runtime, SameOrigins rt (processAddToState env e rt chain) := by
  induction chain with
  | nil => intro rt a; rfl
  | cons s parents ih =>
      intro rt
      unfold processAddToState
      cases rt.find e.ptr with
      | none => exact fun a => rfl
      | some a =>
          have hstamp : SameOrigins rt
              (if env.options.trackCycles = true then stampFreshness a rt else rt) := by
            split
            · exact SameOrigins.setAlloc a { rt.allocs a with freshness := rt.freshnessSetter } rfl
            · exact fun b => rfl
          dsimp only
          split
          · exact hstamp
          · exact (hstamp.trans (sameOrigins_setInfo a s _)).trans (ih _)

theorem sameOrigins_processStateRegionSet (e : ShadowEntry) (chain : List StateId) :
    ∀ rt : Runtime, SameOrigins rt (processStateRegionSet e rt chain) := by
  induction chain with
  | nil => intro rt a; rfl
  | cons s parents ih =>
      intro rt
      unfold processStateRegionSet
      cases rt.find e.ptr with
      | none => exact fun a => rfl
      | some a =>
          show SameOrigins rt (processStateRegionSet e (recordRegion e a s rt) parents)
          exact (sameOrigins_setInfo a s _).trans (ih _)

/-- Only an `ALLOC_ADD` gives an object an origin. -/
theorem sameOrigins_processEntry (env : Env) (rt : Runtime) {e : ShadowEntry}
    (hadd : e.operation ≠ .allocAdd) : SameOrigins rt (processEntry env rt e) := by
  unfold processEntry
  split
  next h => exact absurd h hadd
  · unfold processFreeAllocation
    cases rt.find e.ptr with
    | none => exact fun a => rfl
    | some a => exact sameOrigins_commitStateInfo env.tree e.affiliatedState a
  · unfold processAddEscape
    split
    · exact fun a => rfl
    · cases rt.find (env.mem e.ptr) with
      | none => exact fun a => rfl
      | some a => exact SameOrigins.setAlloc a _ rfl
  · exact sameOrigins_processAddToState env e _ rt
  · exact sameOrigins_processAddToState env e _ rt
  · exact sameOrigins_processAddToState env e _ rt
  · cases e.sizeState.getStatePtr with
    | none => exact sameOrigins_foldl_commitStateInfo env.tree _ rt
    | some s => exact sameOrigins_foldl_commitStateInfo env.tree _ rt
  · exact sameOrigins_processStateRegionSet e _ rt
  · exact fun a => rfl

/-- An `ALLOC_ADD` gives its origin to the object it creates, and to no
other. -/
theorem origin_processAddAlloc (env : Env) (rt : Runtime) (e : ShadowEntry) (a : AllocId) :
    ((processAddAlloc env rt e).allocs a).origin
      = if rt.originToAllocMap e.information = none ∧ a = rt.numAllocs then e.information
        else (rt.allocs a).origin := by
  unfold processAddAlloc originObject noteAllocated Runtime.setAlloc
  cases ho : rt.originToAllocMap e.information with
  | none =>
      by_cases ha : a = rt.numAllocs
      · subst ha
        simp [Allocation.new]
      · simp [ha]
  | some b =>
      by_cases ha : a = b
      · subst ha
        simp
      · simp [ha]

end SameOrigins

-- ============================================================ the sentinel

/-- The operations that record something on an object. -/
def Operation.recording : Operation → Bool
  | .stateAdd _ | .stateAddRead | .stateAddWrite | .stateRegionSet => true
  | _ => false

/-- The entry brings a known origin, and records nothing for the highest
address. -/
structure KnownEntry (known : UInt64 → Prop) (e : ShadowEntry) : Prop where
  origin : e.operation = .allocAdd → known e.information
  address : e.operation.recording = true → e.ptr ≠ maxAddr

/-- Where the sentinel is, and what the other objects' origins are. -/
structure OriginInv (known : UInt64 → Prop) (rt : Runtime) : Prop extends RecordInv rt where
  sentinel_key : ∀ k, rt.allocationMap.sortedAllocationTable.find? k = some 0 → k = maxAddr
  sentinel_origin : ∀ o, rt.originToAllocMap o ≠ some 0
  sentinel_record : ∀ s, ¬ HasRecord rt 0 s
  num_pos : 0 < rt.numAllocs
  origin : ∀ a, 0 < a → a < rt.numAllocs → known (rt.allocs a).origin
  key : ∀ a s, HasKey rt a s → 0 < a ∧ a < rt.numAllocs

section Sentinel

variable {known : UInt64 → Prop} {env : Env} {rt : Runtime} {e : ShadowEntry}

theorem MakesRecord.recording {a : AllocId} {s : StateId} (h : MakesRecord env rt e a s) :
    e.operation.recording = true := by
  unfold MakesRecord at h
  split at h
  next hop => rw [hop]; rfl
  next hop => rw [hop]; rfl
  next hop => rw [hop]; rfl
  next hop => rw [hop]; rfl
  · exact h.elim

/-- Nothing lies above the highest address. -/
theorem not_maxAddr_lt (p : Addr) : ¬ maxAddr < p := by
  rw [UInt64.lt_iff_toNat_lt]
  have hp := p.toNat_lt
  have hmax : maxAddr.toNat = 2 ^ 64 - 1 := rfl
  omega

/-- A lookup finds the sentinel under its own address only. -/
theorem OriginInv.find_sentinel (hinv : OriginInv known rt) {p : Addr}
    (h : rt.find p = some 0) : p = maxAddr := by
  unfold Runtime.find findAllocation at h
  rw [hinv.maskFree.masks_nil, List.findSome?_nil] at h
  cases hlb : rt.allocationMap.sortedAllocationTable.lowerBound p with
  | none =>
      rw [hlb] at h
      cases h
  | some entry =>
      obtain ⟨k, b⟩ := entry
      simp only [hlb] at h
      split at h
      next hk =>
        injection h with h
        subst h
        rw [← hk]
        exact hinv.sentinel_key k (SortedMap.lowerBound_eq_some.mp hlb).1
      · cases hpr : rt.allocationMap.sortedAllocationTable.pred p with
        | none =>
            rw [hpr] at h
            cases h
        | some entry =>
            obtain ⟨k', b'⟩ := entry
            simp only [hpr] at h
            split at h
            · cases h
            · injection h with h
              subst h
              obtain ⟨hfind, hlt, -⟩ := SortedMap.pred_eq_some hpr
              rw [hinv.sentinel_key k' hfind] at hlt
              exact absurd hlt (not_maxAddr_lt p)

/-- The object an `ALLOC_ADD` uses is not the sentinel. -/
theorem OriginInv.object_pos (hinv : OriginInv known rt) {rt' : Runtime} {a : AllocId}
    (h : AddAlloc rt rt' e a) : 0 < a := by
  cases ho : rt.originToAllocMap e.information with
  | none =>
      rw [h.fresh ho]
      exact hinv.num_pos
  | some b =>
      have hb := h.old b ho
      rw [← hb]
      refine Nat.pos_of_ne_zero fun hzero => hinv.sentinel_origin e.information ?_
      rw [ho, hzero]

theorem OriginInv.key_of_insert (hinv : OriginInv known rt) {a : AllocId} (ha : 0 < a) {p k : Addr}
    (h : (rt.allocationMap.sortedAllocationTable.insert p a).find? k = some 0) : k = maxAddr := by
  rw [SortedMap.find?_insert] at h
  split at h
  next hk =>
    cases hf : rt.allocationMap.sortedAllocationTable.find? p with
    | none =>
        rw [hf] at h
        injection h with h
        exact absurd h (Nat.ne_of_gt ha)
    | some b =>
        rw [hf] at h
        injection h with h
        have h0 : b = 0 := h
        rw [hk]
        exact hinv.sentinel_key p (by rw [hf, h0])
  · exact hinv.sentinel_key k h

/-- The parts every entry treats alike. -/
theorem OriginInv.records (hinv : OriginInv known rt) (env : Env) (he : KnownEntry known e) :
    (∀ s, ¬ HasRecord (processEntry env rt e) 0 s)
      ∧ ∀ a s, HasKey (processEntry env rt e) a s →
        0 < a ∧ a < (processEntry env rt e).numAllocs := by
  have hspec := processEntry_records env hinv.toRecordInv e
  constructor
  · intro s h
    rcases (hspec.record 0 s).mp h with h | h
    · exact he.address h.recording (hinv.find_sentinel h.find)
    · exact hinv.sentinel_record s h.1
  · intro a s h
    rcases hspec.key_new a s h with h | ⟨h, -⟩
    · obtain ⟨hpos, hlt⟩ := hinv.key a s h
      exact ⟨hpos, Nat.lt_of_lt_of_le hlt hspec.num_le⟩
    · refine ⟨Nat.pos_of_ne_zero fun hzero => ?_,
        Nat.lt_of_lt_of_le (hinv.record_lt a s h) hspec.num_le⟩
      subst hzero
      exact hinv.sentinel_record s h

/-- One entry. -/
theorem OriginInv.step (hinv : OriginInv known rt) (he : KnownEntry known e) :
    OriginInv known (processEntry env rt e) := by
  obtain ⟨hrecord, hkey⟩ := hinv.records env he
  have hinv' : RecordInv (processEntry env rt e) := hinv.toRecordInv.step e
  by_cases hadd : e.operation = .allocAdd
  · rw [processEntry_allocAdd rt hadd] at hrecord hkey hinv' ⊢
    have hspec := processAddAlloc_spec env hinv.toTableInv e
    refine ⟨hinv', ?_, ?_, hrecord, ?_, ?_, hkey⟩
    · intro k hk
      rw [hspec.table] at hk
      exact hinv.key_of_insert (hinv.object_pos hspec) hk
    · intro o ho
      rw [hspec.origins] at ho
      split at ho
      · injection ho with ho
        exact Nat.ne_of_gt (hinv.object_pos hspec) ho
      · exact hinv.sentinel_origin o ho
    · exact Nat.lt_of_lt_of_le hinv.num_pos hspec.numAllocs_le
    · intro a hpos hlt
      rw [origin_processAddAlloc]
      split
      · exact he.origin hadd
      next hold =>
        apply hinv.origin a hpos
        -- the only new object is the one under the next number
        rw [hspec.numAllocs_eq] at hlt
        split at hlt
        next hnone =>
          have hne : a ≠ rt.numAllocs := fun h => hold ⟨hnone, h⟩
          omega
        next => exact hlt
  · have horigin := sameOrigins_processEntry env rt hadd
    by_cases hfree : e.operation = .allocFree
    · rw [processEntry_allocFree rt hfree] at hrecord hkey hinv' horigin ⊢
      unfold processFreeAllocation at hrecord hkey hinv' horigin ⊢
      cases hf : rt.find e.ptr with
      | none => exact hinv
      | some b =>
          simp only [hf] at hrecord hkey hinv' horigin ⊢
          refine ⟨hinv', ?_, hinv.sentinel_origin, hrecord, hinv.num_pos, ?_, hkey⟩
          · intro k hk
            have hk' : (deleteAllocation rt.allocationMap e.ptr).sortedAllocationTable.find? k
              = some 0 := hk
            rw [hinv.maskFree.deleteAllocation_eq, SortedMap.find?_erase] at hk'
            split at hk'
            · cases hk'
            · exact hinv.sentinel_key k hk'
          · intro a hpos hlt
            rw [horigin a]
            exact hinv.origin a hpos hlt
    · have hsame := sameTable_processEntry env rt hadd hfree
      refine ⟨hinv', ?_, ?_, hrecord, ?_, ?_, hkey⟩
      · rw [hsame.table]
        exact hinv.sentinel_key
      · rw [hsame.origins]
        exact hinv.sentinel_origin
      · rw [hsame.numAllocs]
        exact hinv.num_pos
      · intro a hpos hlt
        rw [hsame.numAllocs] at hlt
        rw [horigin a]
        exact hinv.origin a hpos hlt

theorem originInv_init : OriginInv known texasInit where
  toRecordInv := recordInv_init
  sentinel_key k hk := by
    have htab : texasInit.allocationMap.sortedAllocationTable
        = SortedMap.empty.insert maxAddr 0 := rfl
    rw [htab, SortedMap.find?_insert] at hk
    split at hk
    next h => exact h
    next => simp [SortedMap.find?_empty] at hk
  sentinel_origin o h := by cases h
  sentinel_record s h := by
    simp [HasRecord, texasInit, Allocation.new] at h
  num_pos := Nat.one_pos
  origin a hpos hlt := by
    have hone : texasInit.numAllocs = 1 := rfl
    omega
  key a s h := by
    obtain ⟨c, h | h⟩ := h
    · cases h
    · cases h

/-- Entries that are all known: every object in a state's sets has a
known origin. -/
theorem originInv_run (env : Env) (es : List ShadowEntry) :
    ∀ {rt : Runtime}, OriginInv known rt → (∀ e ∈ es, KnownEntry known e) →
      OriginInv known (processEntries env rt es) := by
  induction es with
  | nil => intro rt hinv _; exact hinv
  | cons e es ih =>
      intro rt hinv hes
      exact ih (hinv.step (hes e (List.mem_cons_self ..)))
        fun e' he' => hes e' (List.mem_cons_of_mem _ he')

end Sentinel

end Carmot.Texas
