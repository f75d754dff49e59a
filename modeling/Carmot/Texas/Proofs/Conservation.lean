/-
Conservation of recorded information over whole runs.

`TableInv` is what every reachable runtime satisfies: the table is
mask-free, every object it or the origin map refers to exists, and an
object with anything pending is in the table. The last part is what
makes a commit of the table a commit of everything: a lookup only finds
objects of the table, and an object leaves the table only in a free
that has just committed it.

`pending_step` and `committed_step` say what one entry does: an item
becomes pending when an entry records it, and stops being pending when
its object is committed, which puts it into the state unless the commit
is a free whose skip rule erases the state's record. `settled_run`
turns the two into a statement about runs: what has reached a state by
the end is what was there, what was pending, or what was recorded
on the way, each as long as no erasing free came before the next
commit of the object.
-/
import Carmot.Texas.Proofs.Effects

namespace Carmot.Texas

open Carmot.Lib (SortedMap)

-- ====================================================== the parent walks

section Walks

variable {env : Env} {e : ShadowEntry}

theorem SameTable.accessItem {rt rt' : Runtime} (h : SameTable rt rt')
    (a : AllocId) (x : Item) : AccessItem rt' e a x ↔ AccessItem rt e a x := by
  unfold AccessItem
  rw [h.pointer]

theorem SameTable.regionItem {rt rt' : Runtime} (h : SameTable rt rt')
    (a : AllocId) (x : Item) : RegionItem rt' e a x ↔ RegionItem rt e a x := by
  unfold RegionItem
  rw [h.pointer]

/-- `processAddToState` along a chain records the entry's items once for
every state of the chain, or nothing. -/
theorem processAddToState_effect (env : Env) (e : ShadowEntry) (chain : List StateId) :
    ∀ rt : Runtime,
      SameTable rt (processAddToState env e rt chain)
        ∧ (processAddToState env e rt chain).sets = rt.sets
        ∧ (processAddToState env e rt chain).ptrs = rt.ptrs
        ∧ ∀ b t x, Pending (processAddToState env e rt chain) b t x ↔
          Pending rt b t x ∨ (rt.find e.ptr = some b ∧ t ∈ chain
            ∧ (env.options.trackCycles && e.operation.isAccess) = false
            ∧ AccessItem rt e b x) := by
  induction chain with
  | nil => intro rt; exact ⟨SameTable.refl rt, rfl, rfl, fun b t x => by simp [processAddToState]⟩
  | cons s parents ih =>
      intro rt
      unfold processAddToState
      cases hf : rt.find e.ptr with
      | none => exact ⟨SameTable.refl rt, rfl, rfl, fun b t x => by simp⟩
      | some a =>
          dsimp only
          -- the stamp changes neither the table nor what is pending
          generalize hrt : (if env.options.trackCycles = true then stampFreshness a rt
            else rt) = rt₁
          have hsame : SameTable rt rt₁ := by
            rw [← hrt]
            split
            · exact sameTable_stampFreshness a
            · exact SameTable.refl rt
          have hsets : rt₁.sets = rt.sets := by
            rw [← hrt]
            split
            · rfl
            · rfl
          have hptrs : rt₁.ptrs = rt.ptrs := by
            rw [← hrt]
            split
            · rfl
            · rfl
          have hpend : ∀ b t x, Pending rt₁ b t x ↔ Pending rt b t x := by
            intro b t x
            rw [← hrt]
            split
            · exact pending_stampFreshness a b t x
            · exact Iff.rfl
          cases hraw : env.options.trackCycles && e.operation.isAccess with
          | true => exact ⟨hsame, hsets, hptrs, fun b t x => by simp [hpend]⟩
          | false =>
              obtain ⟨ihs, ihset, ihptr, ihp⟩ := ih (recordAccess e a s rt₁)
              have hrec := hsame.trans (sameTable_recordAccess e a s)
              refine ⟨hrec.trans ihs, ihset.trans hsets, ihptr.trans hptrs,
                fun b t x => ?_⟩
              rw [if_neg (by simp), ihp, pending_recordAccess, hpend, hrec.find, hf,
                hrec.accessItem, hsame.accessItem, hraw, List.mem_cons]
              constructor
              · intro h
                rcases h with (h | ⟨rfl, rfl, h⟩) | ⟨h₁, h₂, h₃, h₄⟩
                · exact Or.inl h
                · exact Or.inr ⟨rfl, Or.inl rfl, rfl, h⟩
                · exact Or.inr ⟨h₁, Or.inr h₂, h₃, h₄⟩
              · intro h
                rcases h with h | ⟨h₁, rfl | h₂, h₃, h₄⟩
                · exact Or.inl (Or.inl h)
                · injection h₁ with h₁
                  subst h₁
                  exact Or.inl (Or.inr ⟨rfl, rfl, h₄⟩)
                · exact Or.inr ⟨h₁, h₂, h₃, h₄⟩

/-- `processStateRegionSet` along a chain records the region once for
every state of the chain, or nothing. -/
theorem processStateRegionSet_effect (e : ShadowEntry) (chain : List StateId) :
    ∀ rt : Runtime,
      SameTable rt (processStateRegionSet e rt chain)
        ∧ (processStateRegionSet e rt chain).sets = rt.sets
        ∧ (processStateRegionSet e rt chain).ptrs = rt.ptrs
        ∧ ∀ b t x, Pending (processStateRegionSet e rt chain) b t x ↔
          Pending rt b t x
            ∨ (rt.find e.ptr = some b ∧ t ∈ chain ∧ RegionItem rt e b x) := by
  induction chain with
  | nil =>
      intro rt
      exact ⟨SameTable.refl rt, rfl, rfl, fun b t x => by simp [processStateRegionSet]⟩
  | cons s parents ih =>
      intro rt
      unfold processStateRegionSet
      cases hf : rt.find e.ptr with
      | none => exact ⟨SameTable.refl rt, rfl, rfl, fun b t x => by simp⟩
      | some a =>
          obtain ⟨ihs, ihset, ihptr, ihp⟩ := ih (recordRegion e a s rt)
          have hrec : SameTable rt (recordRegion e a s rt) := sameTable_recordRegion e a s
          refine ⟨hrec.trans ihs, ihset, ihptr, fun b t x => ?_⟩
          show Pending (processStateRegionSet e (recordRegion e a s rt) parents) b t x ↔ _
          rw [ihp, pending_recordRegion, hrec.find, hf, hrec.regionItem, List.mem_cons]
          constructor
          · intro h
            rcases h with (h | ⟨rfl, rfl, h⟩) | ⟨h₁, h₂, h₃⟩
            · exact Or.inl h
            · exact Or.inr ⟨rfl, Or.inl rfl, h⟩
            · exact Or.inr ⟨h₁, Or.inr h₂, h₃⟩
          · intro h
            rcases h with h | ⟨h₁, rfl | h₂, h₃⟩
            · exact Or.inl (Or.inl h)
            · injection h₁ with h₁
              subst h₁
              exact Or.inl (Or.inr ⟨rfl, rfl, h₃⟩)
            · exact Or.inr ⟨h₁, h₂, h₃⟩

end Walks

-- ========================================================== the invariant

/-- What holds of every reachable runtime. -/
structure TableInv (rt : Runtime) : Prop where
  maskFree : rt.allocationMap.MaskFree
  pending_mem : ∀ a s x, Pending rt a s x → a ∈ rt.allocationMap.objects
  objects_lt : ∀ a ∈ rt.allocationMap.objects, a < rt.numAllocs
  origins_lt : ∀ o a, rt.originToAllocMap o = some a → a < rt.numAllocs

/-- Steps that keep the table and add nothing pending outside it keep
the invariant. -/
theorem TableInv.of_sameTable {rt rt' : Runtime} (hinv : TableInv rt)
    (hsame : SameTable rt rt')
    (hpend : ∀ a s x, Pending rt' a s x → Pending rt a s x ∨ a ∈ rt.allocationMap.objects) :
    TableInv rt' where
  maskFree := hsame.table ▸ hinv.maskFree
  pending_mem a s x h := by
    rw [hsame.table]
    rcases hpend a s x h with h | h
    · exact hinv.pending_mem a s x h
    · exact h
  objects_lt a h := by
    rw [hsame.numAllocs]
    exact hinv.objects_lt a (hsame.table ▸ h)
  origins_lt o a h := by
    rw [hsame.numAllocs]
    exact hinv.origins_lt o a (hsame.origins ▸ h)

theorem TableInv.mem_of_find {rt : Runtime} (hinv : TableInv rt) {p : Addr} {a : AllocId}
    (h : rt.find p = some a) : a ∈ rt.allocationMap.objects :=
  hinv.maskFree.mem_objects_of_find h

theorem tableInv_init : TableInv texasInit where
  maskFree := ⟨rfl, rfl, rfl⟩
  pending_mem a s x h := by
    obtain ⟨info, hi, -⟩ := h
    by_cases ha : a = 0
    · simp [texasInit, ha, Allocation.new] at hi
    · simp [texasInit, ha, Allocation.new] at hi
  objects_lt a h := by
    have hobj : texasInit.allocationMap.objects = [0] := rfl
    rw [hobj, List.mem_singleton] at h
    rw [h]
    exact Nat.one_pos
  origins_lt o a h := by cases h

-- ===================================================== allocation entries

/-- The object of an `ALLOC_ADD`: fresh or the origin's old one, with
the entry's pointer and length; nothing pending anywhere changes. -/
structure OriginObject (rt rt' : Runtime) (e : ShadowEntry) (a : AllocId) : Prop where
  table : rt'.allocationMap = rt.allocationMap
  sets : rt'.sets = rt.sets
  ptrs : rt'.ptrs = rt.ptrs
  lt : a < rt'.numAllocs
  num_le : rt.numAllocs ≤ rt'.numAllocs
  num_eq : rt'.numAllocs = rt.numAllocs
    + if rt.originToAllocMap e.information = none then 1 else 0
  origins : ∀ o, rt'.originToAllocMap o
    = if o = e.information then some a else rt.originToAllocMap o
  old : ∀ b, rt.originToAllocMap e.information = some b → b = a
  fresh : rt.originToAllocMap e.information = none → a = rt.numAllocs
  others : ∀ b, b ≠ a → rt'.allocs b = rt.allocs b
  pointer : (rt'.allocs a).pointer = e.ptr
  length : (rt'.allocs a).length = e.sizeState.getSize
  pending : ∀ b s x, Pending rt' b s x ↔ Pending rt b s x

theorem originObject_spec {rt : Runtime} (hinv : TableInv rt) (e : ShadowEntry) :
    OriginObject rt (originObject rt e).1 e (originObject rt e).2 := by
  unfold originObject
  cases ho : rt.originToAllocMap e.information with
  | none =>
      refine ⟨rfl, rfl, rfl, Nat.lt_succ_self _, Nat.le_succ _, by simp [ho], ?_, ?_,
        fun _ => rfl, ?_, ?_, ?_, ?_⟩
      · intro o
        by_cases h : o = e.information
        · simp [h]
        · simp [h]
      · intro b hb
        rw [ho] at hb
        cases hb
      · intro b hb
        exact Function.update_of_ne hb ..
      · simp [Allocation.new]
      · simp [Allocation.new]
      · intro b s x
        unfold Pending
        by_cases hb : b = rt.numAllocs
        · -- a fresh object has nothing pending, and neither had the number
          subst hb
          simp only [Function.update_self, Allocation.new, reduceCtorEq, false_and,
            exists_false, false_iff, not_exists, not_and]
          intro info hi hx
          exact Nat.lt_irrefl _ (hinv.objects_lt _ (hinv.pending_mem _ s x ⟨info, hi, hx⟩))
        · simp [hb]
  | some a =>
      refine ⟨rfl, rfl, rfl, hinv.origins_lt _ a ho, Nat.le_refl _,
        by simp [ho, Runtime.setAlloc], ?_, ?_, ?_, ?_, ?_, ?_, ?_⟩
      · intro o
        by_cases h : o = e.information
        · simp [h, Runtime.setAlloc, ho]
        · simp [h, Runtime.setAlloc]
      · intro b hb
        rw [ho] at hb
        injection hb with hb
        exact hb.symm
      · intro h
        rw [ho] at h
        cases h
      · intro b hb
        exact Function.update_of_ne hb ..
      · simp [Runtime.setAlloc]
      · simp [Runtime.setAlloc]
      · intro b s x
        unfold Pending Runtime.setAlloc
        by_cases hb : b = a
        · subst hb
          simp
        · simp [hb]

/-- Objects after an insertion into a mask-free table. -/
theorem mem_objects_insert {t : AllocationTable} (ht : t.MaskFree)
    (allocs : AllocId → Allocation) (key : Addr) (a b : AllocId) :
    (b ∈ t.objects → b ∈ (insertAllocation allocs t key a).objects)
      ∧ (b ∈ (insertAllocation allocs t key a).objects → b = a ∨ b ∈ t.objects) := by
  rw [(ht.insertAllocation allocs key a).mem_objects, ht.mem_objects,
    ht.insertAllocation_eq]
  simp only [SortedMap.find?_insert]
  constructor
  · intro h
    obtain ⟨k, hk⟩ := h
    refine ⟨k, ?_⟩
    by_cases h : k = key
    · subst h
      simp [hk]
    · simp [h, hk]
  · intro h
    obtain ⟨k, hk⟩ := h
    by_cases h : k = key
    · subst h
      cases hf : t.sortedAllocationTable.find? k with
      | none =>
          simp only [hf, if_true, Option.getD_none, Option.some.injEq] at hk
          exact Or.inl hk.symm
      | some c =>
          simp only [hf, if_true, Option.getD_some, Option.some.injEq] at hk
          exact Or.inr ⟨k, by rw [hf, hk]⟩
    · rw [if_neg h] at hk
      exact Or.inr ⟨k, hk⟩

/-- What an `ALLOC_ADD` does, with `a` its object. -/
structure AddAlloc (rt rt' : Runtime) (e : ShadowEntry) (a : AllocId) : Prop where
  table : rt'.allocationMap
    = { rt.allocationMap with
        sortedAllocationTable := rt.allocationMap.sortedAllocationTable.insert e.ptr a }
  ptrs : rt'.ptrs = rt.ptrs
  numAllocs_lt : a < rt'.numAllocs
  numAllocs_le : rt.numAllocs ≤ rt'.numAllocs
  numAllocs_eq : rt'.numAllocs = rt.numAllocs
    + if rt.originToAllocMap e.information = none then 1 else 0
  origins : ∀ o, rt'.originToAllocMap o
    = if o = e.information then some a else rt.originToAllocMap o
  old : ∀ b, rt.originToAllocMap e.information = some b → b = a
  fresh : rt.originToAllocMap e.information = none → a = rt.numAllocs
  others : ∀ b, b ≠ a → rt'.allocs b = rt.allocs b
  pointer : (rt'.allocs a).pointer = e.ptr
  length : (rt'.allocs a).length = e.sizeState.getSize
  affiliated : (rt'.allocs a).affiliatedState = e.affiliatedState
  pending : ∀ b s x, Pending rt' b s x ↔ Pending rt b s x
  committed : ∀ b s x, Committed rt' b s x ↔ Committed rt b s x

theorem processAddAlloc_spec (env : Env) {rt : Runtime} (hinv : TableInv rt)
    (e : ShadowEntry) :
    AddAlloc rt (processAddAlloc env rt e) e (originObject rt e).2 := by
  have hobj := originObject_spec hinv e
  unfold processAddAlloc
  generalize originObject rt e = r at hobj
  obtain ⟨rt₁, a⟩ := r
  have hmask : rt₁.allocationMap.MaskFree := hobj.table ▸ hinv.maskFree
  refine
    { table := ?_, ptrs := hobj.ptrs, numAllocs_lt := hobj.lt,
      numAllocs_le := hobj.num_le, numAllocs_eq := hobj.num_eq, origins := hobj.origins, old := hobj.old,
      fresh := hobj.fresh, others := ?_, pointer := ?_, length := ?_,
      affiliated := ?_, pending := ?_, committed := ?_ }
  · show insertAllocation rt₁.allocs rt₁.allocationMap e.ptr a = _
    rw [hmask.insertAllocation_eq, hobj.table]
  · intro b hb
    rw [← hobj.others b hb]
    exact Function.update_of_ne hb ..
  · rw [← hobj.pointer]
    simp [noteAllocated, Runtime.setAlloc]
  · rw [← hobj.length]
    simp [noteAllocated, Runtime.setAlloc]
  · simp [noteAllocated, Runtime.setAlloc]
  · intro b s x
    rw [← hobj.pending]
    unfold Pending noteAllocated Runtime.setAlloc
    by_cases hb : b = a
    · subst hb
      simp
    · simp [hb]
  · intro b s x
    unfold Committed noteAllocated Runtime.setAlloc
    dsimp only
    rw [hobj.sets]
    split
    · cases x with
      | use id => exact Iff.rfl
      | offset c off => exact Iff.rfl
    · exact Iff.rfl

theorem TableInv.addAlloc {rt rt' : Runtime} {e : ShadowEntry} {a : AllocId}
    (hinv : TableInv rt) (h : AddAlloc rt rt' e a) : TableInv rt' := by
  have htab : rt'.allocationMap
      = insertAllocation rt.allocs rt.allocationMap e.ptr a := by
    rw [h.table, hinv.maskFree.insertAllocation_eq]
  refine ⟨?_, ?_, ?_, ?_⟩
  · rw [htab]
    exact hinv.maskFree.insertAllocation ..
  · intro b s x hb
    rw [htab]
    exact (mem_objects_insert hinv.maskFree ..).1
      (hinv.pending_mem b s x ((h.pending b s x).mp hb))
  · intro b hb
    rw [htab] at hb
    rcases (mem_objects_insert hinv.maskFree ..).2 hb with rfl | hb
    · exact h.numAllocs_lt
    · exact Nat.lt_of_lt_of_le (hinv.objects_lt b hb) h.numAllocs_le
  · intro o b hb
    rw [h.origins] at hb
    split at hb
    · injection hb with hb
      exact hb ▸ h.numAllocs_lt
    · exact Nat.lt_of_lt_of_le (hinv.origins_lt o b hb) h.numAllocs_le

/-- A free erases one key; an object that leaves the table by it is the
one the lookup found. -/
theorem mem_objects_delete {t : AllocationTable} (ht : t.MaskFree)
    {allocs : AllocId → Allocation} {key : Addr} {a b : AllocId}
    (hf : findAllocation allocs t key = some a) (hb : b ≠ a) :
    b ∈ (deleteAllocation t key).objects ↔ b ∈ t.objects := by
  rw [(ht.deleteAllocation key).mem_objects, ht.mem_objects, ht.deleteAllocation_eq]
  simp only [SortedMap.find?_erase]
  constructor
  · intro h
    obtain ⟨k, hk⟩ := h
    by_cases h : k = key
    · simp [h] at hk
    · rw [if_neg h] at hk
      exact ⟨k, hk⟩
  · intro h
    obtain ⟨k, hk⟩ := h
    refine ⟨k, ?_⟩
    by_cases h : k = key
    · subst h
      rw [ht.findAllocation_of_key allocs hk] at hf
      injection hf with hf
      exact absurd hf hb
    · rw [if_neg h]
      exact hk

theorem TableInv.freeAlloc {tree : StateTree} {rt : Runtime} (hinv : TableInv rt)
    {key : Addr} {a : AllocId} {skip : Option StateId} (hf : rt.find key = some a) :
    TableInv
      { commitStateInfo tree skip rt a with
        allocationMap := deleteAllocation rt.allocationMap key } := by
  refine ⟨hinv.maskFree.deleteAllocation key, ?_, ?_, hinv.origins_lt⟩
  · intro b s x hb
    have hb' : Pending (commitStateInfo tree skip rt a) b s x := hb
    rw [pending_commitStateInfo] at hb'
    exact (mem_objects_delete hinv.maskFree hf hb'.1).mpr (hinv.pending_mem b s x hb'.2)
  · intro b hb
    by_cases hba : b = a
    · rw [hba]
      exact hinv.objects_lt a (hinv.mem_of_find hf)
    · exact hinv.objects_lt b ((mem_objects_delete hinv.maskFree hf hba).mp hb)

-- ============================================================== one entry

/-- The entry records item `x` on object `a` for state `s`. Under cycle
tracking an entry that is still a raw access records nothing. -/
def Records (env : Env) (rt : Runtime) (e : ShadowEntry) (a : AllocId) (s : StateId)
    (x : Item) : Prop :=
  match e.operation with
  | .stateAdd _ | .stateAddRead | .stateAddWrite => rt.find e.ptr = some a
      ∧ s ∈ env.tree.chain? e.sizeState.getStatePtr
      ∧ (env.options.trackCycles && e.operation.isAccess) = false
      ∧ AccessItem rt e a x
  | .stateRegionSet => rt.find e.ptr = some a
      ∧ s ∈ env.tree.chain? e.affiliatedState ∧ RegionItem rt e a x
  | _ => False

/-- The entry commits object `a`: it frees an address found in `a`, or
it commits the whole table and `a` is in it. -/
def Commits (rt : Runtime) (e : ShadowEntry) (a : AllocId) : Prop :=
  match e.operation with
  | .allocFree => rt.find e.ptr = some a
  | .stateCommit => a ∈ rt.allocationMap.objects
  | _ => False

/-- The entry is a free of `a` whose skip rule erases the record of
state `s`. -/
def Erases (env : Env) (rt : Runtime) (e : ShadowEntry) (a : AllocId) (s : StateId) :
    Prop :=
  e.operation = .allocFree ∧ rt.find e.ptr = some a
    ∧ Skips env.tree (rt.allocs a) e.affiliatedState s

theorem not_commits {rt : Runtime} {e : ShadowEntry} (hfree : e.operation ≠ .allocFree)
    (hcommit : e.operation ≠ .stateCommit) (a : AllocId) : ¬ Commits rt e a := by
  unfold Commits
  split
  next hop => exact absurd hop hfree
  next hop => exact absurd hop hcommit
  · exact id

theorem Erases.commits {env : Env} {rt : Runtime} {e : ShadowEntry} {a : AllocId}
    {s : StateId} (h : Erases env rt e a s) : Commits rt e a := by
  simp only [Commits, h.1]
  exact h.2.1

/-- One entry, seen through items: what becomes pending, what gets
committed, and that the invariant holds again. -/
structure StepSpec (env : Env) (rt : Runtime) (e : ShadowEntry) (rt' : Runtime) :
    Prop where
  inv : TableInv rt'
  pending : ∀ a s x, Pending rt' a s x ↔
    (Pending rt a s x ∧ ¬ Commits rt e a) ∨ Records env rt e a s x
  committed : ∀ a s x, Committed rt' a s x ↔
    Committed rt a s x ∨ (Pending rt a s x ∧ Commits rt e a ∧ ¬ Erases env rt e a s)

/-- An entry that neither records nor commits. -/
theorem StepSpec.of_idle {env : Env} {rt rt' : Runtime} {e : ShadowEntry}
    (hinv : TableInv rt') (hp : ∀ a s x, Pending rt' a s x ↔ Pending rt a s x)
    (hc : ∀ a s x, Committed rt' a s x ↔ Committed rt a s x)
    (hnorec : ∀ a s x, ¬ Records env rt e a s x) (hnocom : ∀ a, ¬ Commits rt e a) :
    StepSpec env rt e rt' where
  inv := hinv
  pending a s x := by simp [hp, hnorec, hnocom]
  committed a s x := by simp [hc, hnocom]

/-- An entry that only records. -/
theorem StepSpec.of_records {env : Env} {rt rt' : Runtime} {e : ShadowEntry}
    (hinv : TableInv rt) (hsame : SameTable rt rt') (hsets : rt'.sets = rt.sets)
    (hp : ∀ a s x, Pending rt' a s x ↔ Pending rt a s x ∨ Records env rt e a s x)
    (hrec : ∀ a s x, Records env rt e a s x → rt.find e.ptr = some a)
    (hnocom : ∀ a, ¬ Commits rt e a) : StepSpec env rt e rt' where
  inv := hinv.of_sameTable hsame fun a s x h => by
    rcases (hp a s x).mp h with h | h
    · exact Or.inl h
    · exact Or.inr (hinv.mem_of_find (hrec a s x h))
  pending a s x := by simp [hp, hnocom]
  committed a s x := by simp [Committed, hsets, hnocom]

section OneEntry

variable {env : Env} {rt : Runtime} {e : ShadowEntry}

theorem processFreeAllocation_spec (hinv : TableInv rt) (hop : e.operation = .allocFree) :
    StepSpec env rt e (processFreeAllocation env rt e) := by
  have hcom : ∀ a, Commits rt e a ↔ rt.find e.ptr = some a := by
    intro a
    simp only [Commits, hop]
  have hrec : ∀ a s x, ¬ Records env rt e a s x := by
    intro a s x
    simp only [Records, hop, not_false_eq_true]
  unfold processFreeAllocation
  cases hf : rt.find e.ptr with
  | none =>
      apply StepSpec.of_idle hinv (fun _ _ _ => Iff.rfl) (fun _ _ _ => Iff.rfl) hrec
      intro a
      rw [hcom, hf]
      simp
  | some b =>
      refine ⟨hinv.freeAlloc hf, fun a s x => ?_, fun a s x => ?_⟩
      · show Pending (commitStateInfo env.tree e.affiliatedState rt b) a s x ↔ _
        rw [pending_commitStateInfo, hcom, hf]
        simp only [Option.some.injEq, hrec, or_false]
        rw [and_comm, eq_comm]
      · show Committed (commitStateInfo env.tree e.affiliatedState rt b) a s x ↔ _
        rw [committed_commitStateInfo, hcom, hf]
        unfold Erases
        rw [hf]
        simp only [hop, true_and, Option.some.injEq]
        constructor
        · intro h
          rcases h with h | ⟨rfl, h₁, h₂⟩
          · exact Or.inl h
          · exact Or.inr ⟨h₁, rfl, fun h => h₂ h.2⟩
        · intro h
          rcases h with h | ⟨h₁, rfl, h₂⟩
          · exact Or.inl h
          · exact Or.inr ⟨rfl, h₁, fun h => h₂ ⟨rfl, h⟩⟩

theorem processAddEscape_effect (env : Env) (rt : Runtime) (e : ShadowEntry) :
    SameTable rt (processAddEscape env rt e)
      ∧ (processAddEscape env rt e).sets = rt.sets
      ∧ (processAddEscape env rt e).ptrs = rt.ptrs
      ∧ ∀ a s x, Pending (processAddEscape env rt e) a s x ↔ Pending rt a s x := by
  unfold processAddEscape
  split
  · exact ⟨SameTable.refl rt, rfl, rfl, fun _ _ _ => Iff.rfl⟩
  · split
    · exact ⟨SameTable.refl rt, rfl, rfl, fun _ _ _ => Iff.rfl⟩
    next b _ =>
      refine ⟨SameTable.setAlloc rt b _ rfl rfl rfl, rfl, rfl, fun a s x => ?_⟩
      unfold Pending Runtime.setAlloc
      by_cases hb : a = b
      · subst hb
        simp
      · simp [hb]

theorem commitEntry_spec (hinv : TableInv rt) (hop : e.operation = .stateCommit) :
    StepSpec env rt e (processEntry env rt e) := by
  have hcom : ∀ a, Commits rt e a ↔ a ∈ rt.allocationMap.objects := by
    intro a
    simp only [Commits, hop]
  have hrec : ∀ a s x, ¬ Records env rt e a s x := by
    intro a s x
    simp only [Records, hop, not_false_eq_true]
  have hnoerase : ∀ a s, ¬ Erases env rt e a s := by
    intro a s h
    have hfree := h.1
    rw [hop] at hfree
    cases hfree
  have hall : StepSpec env rt e (commitStateInfoForAllocations env.tree rt) := by
    refine ⟨hinv.of_sameTable (sameTable_commitAll rt) ?_, fun a s x => ?_, fun a s x => ?_⟩
    · intro a s x h
      exact Or.inl ((pending_commitAll rt a s x).mp h).2
    · rw [pending_commitAll, hcom]
      simp only [hrec, or_false]
      rw [and_comm]
    · rw [committed_commitAll, hcom]
      simp only [hnoerase, not_false_eq_true, and_true]
      rw [and_comm]
  unfold processEntry
  rw [hop]
  cases e.sizeState.getStatePtr with
  | none => exact hall
  | some t =>
      refine ⟨hall.inv.of_sameTable (sameTable_commitState _ t) fun a s x h => Or.inl h,
        fun a s x => ?_, fun a s x => ?_⟩
      · show Pending (commitState (commitStateInfoForAllocations env.tree rt) t) a s x ↔ _
        rw [pending_commitState]
        exact hall.pending a s x
      · show Committed (commitState (commitStateInfoForAllocations env.tree rt) t) a s x ↔ _
        rw [committed_commitState]
        exact hall.committed a s x

theorem accessEntry_spec (hinv : TableInv rt)
    (hop : e.operation.isAccess = true ∨ ∃ c, e.operation = .stateAdd c) :
    StepSpec env rt e (processEntry env rt e) := by
  rw [processEntry_access rt hop]
  obtain ⟨hsame, hsets, -, hpend⟩ :=
    processAddToState_effect env e (env.tree.chain? e.sizeState.getStatePtr) rt
  have hrec : ∀ a s x, Records env rt e a s x ↔ rt.find e.ptr = some a
      ∧ s ∈ env.tree.chain? e.sizeState.getStatePtr
      ∧ (env.options.trackCycles && e.operation.isAccess) = false
      ∧ AccessItem rt e a x := by
    intro a s x
    unfold Records
    rcases Operation.access_kinds hop with h | h | ⟨c, h⟩
    · rw [h]
    · rw [h]
    · rw [h]
  refine StepSpec.of_records hinv hsame hsets (fun a s x => ?_) (fun a s x h => ?_)
    (fun a => ?_)
  · rw [hpend, hrec]
  · exact ((hrec a s x).mp h).1
  · rcases Operation.access_kinds hop with h | h | ⟨c, h⟩
    · exact not_commits (by simp [h]) (by simp [h]) a
    · exact not_commits (by simp [h]) (by simp [h]) a
    · exact not_commits (by simp [h]) (by simp [h]) a

theorem regionEntry_spec (hinv : TableInv rt) (hop : e.operation = .stateRegionSet) :
    StepSpec env rt e (processEntry env rt e) := by
  rw [processEntry_regionSet rt hop]
  obtain ⟨hsame, hsets, -, hpend⟩ :=
    processStateRegionSet_effect e (env.tree.chain? e.affiliatedState) rt
  refine StepSpec.of_records hinv hsame hsets (fun a s x => ?_) (fun a s x h => ?_)
    (fun a => ?_)
  · rw [hpend]
    simp only [Records, hop]
  · simp only [Records, hop] at h
    exact h.1
  · simp only [Commits, hop, not_false_eq_true]

/-- Every entry a batch can hold. -/
theorem processEntry_spec (env : Env) (e : ShadowEntry) (hinv : TableInv rt) :
    StepSpec env rt e (processEntry env rt e) := by
  -- the operations the switch passes over
  have hidle : processEntry env rt e = rt → (∀ a s x, ¬ Records env rt e a s x) →
      (∀ a, ¬ Commits rt e a) → StepSpec env rt e (processEntry env rt e) := by
    intro heq hrec hcom
    rw [heq]
    exact StepSpec.of_idle hinv (fun _ _ _ => Iff.rfl) (fun _ _ _ => Iff.rfl) hrec hcom
  cases hop : e.operation with
  | allocAdd =>
      have hadd := processAddAlloc_spec env hinv e
      rw [processEntry_allocAdd rt hop]
      refine StepSpec.of_idle (hinv.addAlloc hadd) hadd.pending hadd.committed ?_ ?_
      · intro a s x
        simp only [Records, hop, not_false_eq_true]
      · intro a
        simp only [Commits, hop, not_false_eq_true]
  | allocFree =>
      rw [processEntry_allocFree rt hop]
      exact processFreeAllocation_spec hinv hop
  | escapeAdd =>
      obtain ⟨hsame, hsets, -, hpend⟩ := processAddEscape_effect env rt e
      rw [processEntry_escapeAdd rt hop]
      refine StepSpec.of_idle (hinv.of_sameTable hsame fun a s x h => Or.inl ((hpend a s x).mp h))
        hpend ?_ ?_ ?_
      · intro a s x
        unfold Committed
        rw [hsets]
      · intro a s x
        simp only [Records, hop, not_false_eq_true]
      · intro a
        simp only [Commits, hop, not_false_eq_true]
  | stateAddRead => exact accessEntry_spec hinv (Or.inl (by rw [hop]; rfl))
  | stateAddWrite => exact accessEntry_spec hinv (Or.inl (by rw [hop]; rfl))
  | stateAdd c => exact accessEntry_spec hinv (Or.inr ⟨c, hop⟩)
  | stateCommit => exact commitEntry_spec hinv hop
  | stateRegionSet => exact regionEntry_spec hinv hop
  | _ =>
      refine hidle ?_ ?_ ?_
      · simp only [processEntry, hop]
      · intro a s x
        simp only [Records, hop, not_false_eq_true]
      · intro a
        simp only [Commits, hop, not_false_eq_true]

/-- Only adds and frees change the table. -/
theorem sameTable_processEntry (env : Env) (rt : Runtime) (hadd : e.operation ≠ .allocAdd)
    (hfree : e.operation ≠ .allocFree) : SameTable rt (processEntry env rt e) := by
  unfold processEntry
  split
  next h => exact absurd h hadd
  next h => exact absurd h hfree
  · exact (processAddEscape_effect env rt e).1
  · exact (processAddToState_effect env e _ rt).1
  · exact (processAddToState_effect env e _ rt).1
  · exact (processAddToState_effect env e _ rt).1
  · cases e.sizeState.getStatePtr with
    | none => exact sameTable_commitAll rt
    | some s => exact (sameTable_commitAll rt).trans (sameTable_commitState _ s)
  · exact (processStateRegionSet_effect e _ rt).1
  · exact SameTable.refl rt

end OneEntry

-- ============================================================== whole runs

/-- After `rt`, the entries `es` hold a free that erases the record of
state `s` on object `a`, and no entry before it commits `a`. -/
def ErasedIn (env : Env) (rt : Runtime) (es : List ShadowEntry) (a : AllocId)
    (s : StateId) : Prop :=
  ∃ mid f rest, es = mid ++ f :: rest
    ∧ (∀ m₁ g m₂, mid = m₁ ++ g :: m₂ → ¬ Commits (processEntries env rt m₁) g a)
    ∧ Erases env (processEntries env rt mid) f a s

/-- Some entry of the run records the item, and that recording is not
erased by what follows it. -/
def RecordedIn (env : Env) (rt : Runtime) (es : List ShadowEntry) (a : AllocId)
    (s : StateId) (x : Item) : Prop :=
  ∃ pre e post, es = pre ++ e :: post
    ∧ Records env (processEntries env rt pre) e a s x
    ∧ ¬ ErasedIn env (processEntries env rt (pre ++ [e])) post a s

theorem erasedIn_nil {env : Env} {rt : Runtime} {a : AllocId} {s : StateId} :
    ¬ ErasedIn env rt [] a s := by
  intro h
  obtain ⟨mid, f, rest, h, -⟩ := h
  simp at h

theorem erasedIn_cons {env : Env} {rt : Runtime} {e : ShadowEntry}
    {es : List ShadowEntry} {a : AllocId} {s : StateId} :
    ErasedIn env rt (e :: es) a s ↔
      Erases env rt e a s
        ∨ (¬ Commits rt e a ∧ ErasedIn env (processEntry env rt e) es a s) := by
  constructor
  · intro h
    obtain ⟨mid, f, rest, heq, hno, her⟩ := h
    cases mid with
    | nil =>
        injection heq with h₁ h₂
        subst h₁
        exact Or.inl her
    | cons g mid =>
        injection heq with h₁ h₂
        subst h₁
        refine Or.inr ⟨hno [] e mid rfl, mid, f, rest, h₂, ?_, her⟩
        intro m₁ g m₂ hmid
        exact hno (e :: m₁) g m₂ (by rw [hmid]; rfl)
  · intro h
    rcases h with h | ⟨hno, mid, f, rest, heq, hno', her⟩
    · refine ⟨[], e, es, rfl, ?_, h⟩
      intro m₁ g m₂ hmid
      simp at hmid
    · refine ⟨e :: mid, f, rest, by rw [heq]; rfl, ?_, her⟩
      intro m₁ g m₂ hmid
      cases m₁ with
      | nil =>
          injection hmid with h₁ h₂
          subst h₁
          exact hno
      | cons g' m₁ =>
          injection hmid with h₁ h₂
          subst h₁
          exact hno' m₁ g m₂ h₂

theorem recordedIn_cons {env : Env} {rt : Runtime} {e : ShadowEntry}
    {es : List ShadowEntry} {a : AllocId} {s : StateId} {x : Item} :
    RecordedIn env rt (e :: es) a s x ↔
      (Records env rt e a s x ∧ ¬ ErasedIn env (processEntry env rt e) es a s)
        ∨ RecordedIn env (processEntry env rt e) es a s x := by
  constructor
  · intro h
    obtain ⟨pre, f, post, heq, hrec, hno⟩ := h
    cases pre with
    | nil =>
        injection heq with h₁ h₂
        subst h₁ h₂
        exact Or.inl ⟨hrec, hno⟩
    | cons g pre =>
        injection heq with h₁ h₂
        subst h₁
        exact Or.inr ⟨pre, f, post, h₂, hrec, hno⟩
  · intro h
    rcases h with ⟨hrec, hno⟩ | ⟨pre, f, post, heq, hrec, hno⟩
    · exact ⟨[], e, es, rfl, hrec, hno⟩
    · exact ⟨e :: pre, f, post, by rw [heq]; rfl, hrec, hno⟩

/-- The invariant along a run. -/
theorem tableInv_run (env : Env) (es : List ShadowEntry) :
    ∀ {rt : Runtime}, TableInv rt → TableInv (processEntries env rt es) := by
  induction es with
  | nil => intro rt hinv; exact hinv
  | cons e es ih =>
      intro rt hinv
      exact ih (processEntry_spec env e hinv).inv

/-- Everything that is committed or still pending after a run was
committed before it, was pending before it, or is recorded by it; and
in the last two cases no free erases it. -/
theorem settled_run (env : Env) (es : List ShadowEntry) :
    ∀ {rt : Runtime}, TableInv rt → ∀ a s x,
      (Committed (processEntries env rt es) a s x
          ∨ Pending (processEntries env rt es) a s x) ↔
        Committed rt a s x ∨ (Pending rt a s x ∧ ¬ ErasedIn env rt es a s)
          ∨ RecordedIn env rt es a s x := by
  induction es with
  | nil =>
      intro rt hinv a s x
      have hnorec : ¬ RecordedIn env rt [] a s x := by
        intro h
        obtain ⟨pre, e, post, h, -⟩ := h
        simp at h
      simp [processEntries, erasedIn_nil, hnorec]
  | cons e es ih =>
      intro rt hinv a s x
      have hstep := processEntry_spec env e hinv
      have hrest := ih hstep.inv a s x
      have hcom : Erases env rt e a s → Commits rt e a := Erases.commits
      show (Committed (processEntries env (processEntry env rt e) es) a s x
        ∨ Pending (processEntries env (processEntry env rt e) es) a s x) ↔ _
      rw [hrest, hstep.committed, hstep.pending, erasedIn_cons, recordedIn_cons]
      grind

end Carmot.Texas
