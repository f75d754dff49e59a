/-
What the worker does depends on the table and not on what is pending,
committed or cleaned.

Runtimes with the same table record, commit and erase alike, and one
entry keeps their tables the same (`SameTable.processEntry`). The names
of the origins do not matter either, as long as they are told apart
alike (`Pairing`): `SameShape` is the same table up to these names, and
entries that differ in them keep it (`SameShape.processEntry`).
-/
import Carmot.Texas.Proofs.Conservation

namespace Carmot.Texas

-- ============================================================= same shape

/-- The same table and objects; the origins may be named differently. -/
def SameShape (rt rt' : Runtime) : Prop :=
  SameTable rt { rt' with originToAllocMap := rt.originToAllocMap }

/-- The two runs tell origins apart alike. -/
def Pairing (R : UInt64 → UInt64 → Prop) : Prop :=
  ∀ o o' q q', R o o' → R q q' → (o = q ↔ o' = q')

section Congruence

variable {env : Env} {rt rt' : Runtime} {e : ShadowEntry}

theorem SameTable.records (h : SameTable rt rt') (a : AllocId) (s : StateId) (x : Item) :
    Records env rt' e a s x ↔ Records env rt e a s x := by
  unfold Records
  split
  all_goals simp only [h.find, h.accessItem, h.regionItem]

theorem SameTable.commits (h : SameTable rt rt') (a : AllocId) :
    Commits rt' e a ↔ Commits rt e a := by
  unfold Commits
  split
  · rw [h.find]
  · rw [h.table]
  · exact Iff.rfl

theorem SameTable.erases (h : SameTable rt rt') (a : AllocId) (s : StateId) :
    Erases env rt' e a s ↔ Erases env rt e a s := by
  unfold Erases Skips
  rw [h.find, h.affiliated]

theorem SameShape.records (h : SameShape rt rt') (e : ShadowEntry) (a : AllocId) (s : StateId)
    (x : Item) : Records env rt' e a s x ↔ Records env rt e a s x := SameTable.records h a s x

theorem SameShape.erases (h : SameShape rt rt') (e : ShadowEntry) (a : AllocId) (s : StateId) :
    Erases env rt' e a s ↔ Erases env rt e a s := SameTable.erases h a s

theorem SameShape.commits (h : SameShape rt rt') (e : ShadowEntry) (a : AllocId) :
    Commits rt' e a ↔ Commits rt e a := SameTable.commits h a

/-- Entries that do not touch the table keep the shape on either
side. -/
theorem SameShape.of_sameTable {rt₁ rt₁' : Runtime} (h : SameShape rt rt') (h₁ : SameTable rt rt₁)
    (h₁' : SameTable rt' rt₁') : SameShape rt₁ rt₁' where
  table := h₁'.table.trans (h.table.trans h₁.table.symm)
  numAllocs := h₁'.numAllocs.trans (h.numAllocs.trans h₁.numAllocs.symm)
  origins := rfl
  pointer a := (h₁'.pointer a).trans ((h.pointer a).trans (h₁.pointer a).symm)
  length a := (h₁'.length a).trans ((h.length a).trans (h₁.length a).symm)
  affiliated a := (h₁'.affiliated a).trans ((h.affiliated a).trans (h₁.affiliated a).symm)

theorem SameShape.freeAlloc (h : SameShape rt rt') :
    SameShape (processFreeAllocation env rt e) (processFreeAllocation env rt' e) := by
  have hfind : rt'.find e.ptr = rt.find e.ptr := SameTable.find h e.ptr
  unfold processFreeAllocation
  rw [hfind]
  cases rt.find e.ptr with
  | none => exact h
  | some a =>
      have hcommit := h.of_sameTable (@sameTable_commitStateInfo env.tree rt e.affiliatedState a)
        (@sameTable_commitStateInfo env.tree rt' e.affiliatedState a)
      have htable : (commitStateInfo env.tree e.affiliatedState rt' a).allocationMap
          = (commitStateInfo env.tree e.affiliatedState rt a).allocationMap := hcommit.table
      refine ⟨?_, hcommit.numAllocs, rfl, hcommit.pointer, hcommit.length, hcommit.affiliated⟩
      show deleteAllocation (commitStateInfo env.tree e.affiliatedState rt' a).allocationMap _ = _
      rw [htable]

/-- Equal shapes stay equal under an add with paired origins. -/
theorem SameShape.addAlloc (h : SameShape rt rt') (hinv : TableInv rt) (hinv' : TableInv rt')
    {id : UInt64} (horigin : rt'.originToAllocMap id = rt.originToAllocMap e.information) :
    SameShape (processAddAlloc env rt e) (processAddAlloc env rt' { e with information := id })
      ∧ (originObject rt' { e with information := id }).2 = (originObject rt e).2 := by
  have h₁ := processAddAlloc_spec env hinv e
  have h₂ := processAddAlloc_spec env hinv' { e with information := id }
  have hobj : (originObject rt' { e with information := id }).2 = (originObject rt e).2 := by
    cases ho : rt.originToAllocMap e.information with
    | none =>
        rw [h₁.fresh ho, h₂.fresh (horigin.trans ho)]
        exact h.numAllocs
    | some a => rw [← h₁.old a ho, ← h₂.old a (horigin.trans ho)]
  rw [hobj] at h₂
  refine ⟨?_, hobj⟩
  generalize (originObject rt e).2 = a at h₁ h₂
  have hshape : ∀ b, ((processAddAlloc env rt' { e with information := id }).allocs b).pointer
        = ((processAddAlloc env rt e).allocs b).pointer
      ∧ ((processAddAlloc env rt' { e with information := id }).allocs b).length
        = ((processAddAlloc env rt e).allocs b).length
      ∧ ((processAddAlloc env rt' { e with information := id }).allocs b).affiliatedState
        = ((processAddAlloc env rt e).allocs b).affiliatedState := by
    intro b
    by_cases hb : b = a
    · subst hb
      exact ⟨h₂.pointer.trans h₁.pointer.symm, h₂.length.trans h₁.length.symm,
        h₂.affiliated.trans h₁.affiliated.symm⟩
    · rw [h₁.others b hb, h₂.others b hb]
      exact ⟨h.pointer b, h.length b, h.affiliated b⟩
  have htable : rt'.allocationMap = rt.allocationMap := h.table
  have hnum : rt'.numAllocs = rt.numAllocs := h.numAllocs
  refine ⟨?_, ?_, rfl, fun b => (hshape b).1, fun b => (hshape b).2.1, fun b => (hshape b).2.2⟩
  · show (processAddAlloc env rt' { e with information := id }).allocationMap = _
    rw [h₁.table, h₂.table, htable]
  · show (processAddAlloc env rt' { e with information := id }).numAllocs = _
    rw [h₁.numAllocs_eq, h₂.numAllocs_eq, hnum]
    show _ + (if rt'.originToAllocMap id = none then 1 else 0) = _
    rw [horigin]

/-- Entries that differ in the id keep equal shapes equal. -/
theorem SameShape.processEntry (h : SameShape rt rt') (hinv : TableInv rt) (hinv' : TableInv rt')
    {id : UInt64} (horigin : e.operation = .allocAdd →
      rt'.originToAllocMap id = rt.originToAllocMap e.information) :
    SameShape (processEntry env rt e)
      (Carmot.Texas.processEntry env rt' { e with information := id }) := by
  by_cases hadd : e.operation = .allocAdd
  · rw [processEntry_allocAdd rt hadd, processEntry_allocAdd rt' (e := { e with information := id }) hadd]
    exact (h.addAlloc hinv hinv' (horigin hadd)).1
  · by_cases hfree : e.operation = .allocFree
    · rw [processEntry_allocFree rt hfree,
        processEntry_allocFree rt' (e := { e with information := id }) hfree]
      exact h.freeAlloc
    · exact h.of_sameTable (sameTable_processEntry env rt hadd hfree)
        (sameTable_processEntry env rt' hadd hfree)

/-- Only an add moves the origins. -/
theorem origins_processEntry (rt : Runtime) (hadd : e.operation ≠ .allocAdd) :
    (processEntry env rt e).originToAllocMap = rt.originToAllocMap := by
  by_cases hfree : e.operation = .allocFree
  · rw [processEntry_allocFree rt hfree]
    unfold processFreeAllocation
    cases rt.find e.ptr with
    | none => rfl
    | some a => rfl
  · exact (sameTable_processEntry env rt hadd hfree).origins

/-- Paired names lead to one object before an entry and after. -/
theorem SameShape.origins {R : UInt64 → UInt64 → Prop} (hR : Pairing R) (h : SameShape rt rt')
    (hinv : TableInv rt) (hinv' : TableInv rt')
    (ho : ∀ o o', R o o' → rt'.originToAllocMap o' = rt.originToAllocMap o) {id : UInt64}
    (hadd : e.operation = .allocAdd → R e.information id) {o o' : UInt64} (hoo : R o o') :
    (Carmot.Texas.processEntry env rt' { e with information := id }).originToAllocMap o'
      = (Carmot.Texas.processEntry env rt e).originToAllocMap o := by
  by_cases hop : e.operation = .allocAdd
  · have hobj := (@SameShape.addAlloc env _ _ e h hinv hinv' _ (ho _ _ (hadd hop))).2
    rw [processEntry_allocAdd rt hop, processEntry_allocAdd rt' (e := { e with information := id }) hop,
      (processAddAlloc_spec env hinv e).origins o,
      (processAddAlloc_spec env hinv' { e with information := id }).origins o', hobj]
    have hiff := hR o o' e.information id hoo (hadd hop)
    by_cases heq : o = e.information
    · rw [if_pos heq, if_pos (hiff.mp heq)]
    · rw [if_neg heq, if_neg fun h' => heq (hiff.mpr h')]
      exact ho o o' hoo
  · rw [origins_processEntry rt hop,
      origins_processEntry rt' (e := { e with information := id }) hop]
    exact ho o o' hoo

/-- Equal tables stay equal. -/
theorem SameTable.processEntry (h : SameTable rt rt') (hinv : TableInv rt)
    (hinv' : TableInv rt') :
    SameTable (processEntry env rt e) (Carmot.Texas.processEntry env rt' e) := by
  have hshape : SameShape rt rt' :=
    ⟨h.table, h.numAllocs, rfl, h.pointer, h.length, h.affiliated⟩
  have horigins : ∀ o o', o = o' → rt'.originToAllocMap o' = rt.originToAllocMap o := by
    intro o o' heq
    rw [heq, h.origins]
  have hstep := @SameShape.processEntry env rt rt' e hshape hinv hinv' e.information
    fun _ => horigins _ _ rfl
  refine ⟨hstep.table, hstep.numAllocs, ?_, hstep.pointer, hstep.length, hstep.affiliated⟩
  funext o
  have hpairing : Pairing Eq := by
    intro o o' q q' ho hq
    rw [ho, hq]
  exact @SameShape.origins env rt rt' e Eq hpairing hshape hinv hinv' horigins e.information
    (fun _ => rfl) o o rfl

end Congruence

end Carmot.Texas
