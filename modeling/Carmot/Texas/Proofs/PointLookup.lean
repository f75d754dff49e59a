/-
One lookup in the ordered table, for any table.

`findSorted` is the half of `findAllocation` after the masked probes,
and `findSorted_eq_some` says when it answers with an object, with no
assumption on the table: the key itself is stored, or some key lies
above, and the closest one below passes the alias test. Everything
known about lookups, here and for the hashed tables, is read off it.

The alias test signals failure with -1, which is also the offset of the
highest address from address 0. No block has an address at that
offset, because its end would wrap (`doesItAlias_eq_neg_one`).

A table without masks that holds the sentinel answers exactly: the
sentinel is above every address that is not its own, so the search
never reaches `end()`, and it never backs up from `begin()` because the
source asks first (`findAllocationIter` keeps the iterator to say so).
-/
import Mathlib.Algebra.Group.Nat.Defs
import Mathlib.Tactic.ByContra
import Carmot.Texas.Pipeline

namespace Carmot.Texas

open Carmot.Lib

-- ========================================================== the alias test

/-- The address is the key, or it lies in the block that starts there. -/
def Covers (k : Addr) (len : UInt64) (p : Addr) : Prop :=
  p = k ∨ (k.toNat ≤ p.toNat ∧ p.toNat < k.toNat + len.toNat)

/-- The alias test fails outside the block, for a block that does not
wrap. -/
theorem doesItAlias_eq_neg_one {k p : Addr} {len : UInt64}
    (hfits : k.toNat + len.toNat < 2 ^ 64) :
    doesItAlias k len p = -1 ↔
      ¬ (k.toNat ≤ p.toNat ∧ p.toNat < k.toNat + len.toNat) := by
  have htest : (p ≥ k ∧ p < k + len) ↔
      (k.toNat ≤ p.toNat ∧ p.toNat < k.toNat + len.toNat) := by
    rw [ge_iff_le, UInt64.le_iff_toNat_le, UInt64.lt_iff_toNat_lt, UInt64.toNat_add,
      Nat.mod_eq_of_lt hfits]
  unfold doesItAlias
  rw [← htest]
  by_cases hin : p ≥ k ∧ p < k + len
  · rw [if_pos hin]
    constructor
    · intro h
      -- an offset below the length is at most 2^64 - 2, so it is not -1
      have hoff : p - k = 0xffffffffffffffff := congrArg Int64.toUInt64 h
      have hsub := UInt64.toNat_sub_of_le p k hin.1
      have hmax : (0xffffffffffffffff : UInt64).toNat = 2 ^ 64 - 1 := rfl
      have hlt := (htest.mp hin).2
      rw [hoff, hmax] at hsub
      omega
    · exact fun h => absurd hin h
  · rw [if_neg hin]
    exact ⟨fun _ => hin, fun _ => rfl⟩

-- ====================================================== the ordered search

/-- `findAllocation` after its masked probes found nothing. -/
def findSorted (allocs : AllocId → Allocation) (m : SortedMap Addr AllocId)
    (key : Addr) : Option AllocId :=
  match m.lowerBound key with
  | none => none
  | some (blockStart, a) =>
      if blockStart = key then some a
      else
        match m.pred key with
        | none => none
        | some (prevStart, b) =>
            if doesItAlias prevStart (allocs b).length key = -1 then none else some b

theorem findAllocation_eq (allocs : AllocId → Allocation) (t : AllocationTable) (key : Addr) :
    findAllocation allocs t key
      = match t.masks.findSome? fun mask => t.hashAllocationTable.find? (maskKey key mask) with
        | some a => some a
        | none => findSorted allocs t.sortedAllocationTable key := rfl

theorem AllocationTable.MaskFree.findAllocation_eq {t : AllocationTable} (h : t.MaskFree)
    (allocs : AllocId → Allocation) (key : Addr) :
    findAllocation allocs t key = findSorted allocs t.sortedAllocationTable key := by
  rw [Texas.findAllocation_eq, h.masks_nil, List.findSome?_nil]

section Search

variable {allocs : AllocId → Allocation} {m : SortedMap Addr AllocId} {p : Addr} {a : AllocId}

/-- A stored key finds its own object. -/
theorem findSorted_of_key (h : m.find? p = some a) : findSorted allocs m p = some a := by
  unfold findSorted
  rw [SortedMap.lowerBound_of_find h]
  exact if_pos rfl

/-- An address that is no key, with no key above it, reaches `end()`. -/
theorem findSorted_of_last (h : ∀ j b, m.find? j = some b → j < p) :
    findSorted allocs m p = none := by
  unfold findSorted
  rw [SortedMap.lowerBound_eq_none.mpr h]

/-- An address between two keys is answered by the one below. -/
theorem findSorted_of_above (hp : m.find? p = none)
    (habove : ∃ j b, m.find? j = some b ∧ p < j) :
    findSorted allocs m p
      = match m.pred p with
        | none => none
        | some (prevStart, b) =>
            if doesItAlias prevStart (allocs b).length p = -1 then none else some b := by
  obtain ⟨j, b, hj, hpj⟩ := habove
  unfold findSorted
  cases hlb : m.lowerBound p with
  | none =>
      have hjp := SortedMap.lowerBound_eq_none.mp hlb j b hj
      exact absurd (Std.lt_trans hpj hjp) Std.lt_irrefl
  | some e =>
      obtain ⟨k, c⟩ := e
      have hk := (SortedMap.lowerBound_eq_some.mp hlb).1
      refine if_neg fun heq => ?_
      rw [heq, hp] at hk
      cases hk

/-- When the ordered search answers with an object. -/
theorem findSorted_eq_some :
    findSorted allocs m p = some a ↔
      m.find? p = some a ∨
      (m.find? p = none ∧ (∃ j b, m.find? j = some b ∧ p < j)
        ∧ ∃ k, m.find? k = some a ∧ k < p ∧ (∀ j, k < j → j < p → m.find? j = none)
          ∧ doesItAlias k (allocs a).length p ≠ -1) := by
  cases hp : m.find? p with
  | some b =>
      rw [findSorted_of_key hp]
      simp
  | none =>
      by_cases habove : ∃ j b, m.find? j = some b ∧ p < j
      · rw [findSorted_of_above hp habove]
        simp only [habove, true_and, reduceCtorEq, false_or]
        cases hpr : m.pred p with
        | none =>
            have hnone := SortedMap.pred_eq_none.mp hpr
            constructor
            · intro h
              cases h
            · intro h
              obtain ⟨k, hk, hlt, -⟩ := h
              exact absurd hlt (hnone k a hk)
        | some e =>
            obtain ⟨k, b⟩ := e
            obtain ⟨hk, hlt, hgap⟩ := SortedMap.pred_eq_some hpr
            dsimp only
            constructor
            · intro h
              split at h
              · cases h
              · injection h with h
                subst h
                exact ⟨k, hk, hlt, hgap, ‹_›⟩
            · intro h
              obtain ⟨k', hk', hlt', hgap', halias⟩ := h
              -- both keys are the closest below, so they are one
              have hkk : k' = k := by
                rcases Std.lt_trichotomy k' k with h | h | h
                · rw [hgap' k h hlt] at hk
                  cases hk
                · exact h
                · rw [hgap k' h hlt'] at hk'
                  cases hk'
              subst hkk
              rw [hk] at hk'
              injection hk' with hab
              subst hab
              exact if_neg halias
      · have hlast : ∀ j b, m.find? j = some b → j < p := by
          intro j b hj
          rcases Std.lt_trichotomy j p with h | h | h
          · exact h
          · rw [h, hp] at hj
            cases hj
          · exact absurd ⟨j, b, hj, h⟩ habove
        rw [findSorted_of_last hlast]
        constructor
        · intro h
          cases h
        · intro h
          rcases h with h | ⟨-, h, -⟩
          · cases h
          · exact absurd h habove

end Search

-- ============================================================ the iterator

/-- The iterator is never moved below `begin()` nor read at `end()`,
and the search with it is the search without. -/
theorem findAllocationIter_eq (allocs : AllocId → Allocation) (t : AllocationTable)
    (p : Addr) : findAllocationIter allocs t p = some (findAllocation allocs t p) := by
  unfold findAllocationIter
  rw [Texas.findAllocation_eq]
  cases t.masks.findSome? fun mask => t.hashAllocationTable.find? (maskKey p mask) with
  | some a => rfl
  | none =>
      have hget := t.sortedAllocationTable.getElem?_lowerPos p
      unfold findSorted
      dsimp only
      cases hlb : t.sortedAllocationTable.lowerBound p with
      | none =>
          rw [hlb, List.getElem?_eq_none_iff] at hget
          have hle : t.sortedAllocationTable.lowerPos p
              ≤ t.sortedAllocationTable.entries.length := List.length_filter_le _ _
          rw [if_pos (Nat.le_antisymm hle hget)]
      | some e =>
          obtain ⟨k, a⟩ := e
          rw [hlb] at hget
          have hlt := (List.getElem?_eq_some_iff.mp hget).1
          rw [if_neg (Nat.ne_of_lt hlt), hget]
          simp only [Option.bind_eq_bind, Option.bind_some]
          by_cases hk : k = p
          · rw [if_pos hk, if_pos hk]
          · rw [if_neg hk, if_neg hk]
            by_cases hbegin : t.sortedAllocationTable.lowerPos p = 0
            · rw [if_neg (not_not.mpr hbegin), SortedMap.lowerPos_eq_zero.mp hbegin]
            · rw [if_pos hbegin]
              obtain ⟨i, hi⟩ := Nat.exists_eq_succ_of_ne_zero hbegin
              have hdecr : decr (t.sortedAllocationTable.lowerPos p) = some i := by
                rw [hi]
                rfl
              rw [hdecr, Option.bind_some, SortedMap.getElem?_of_decr hdecr]
              cases hpr : t.sortedAllocationTable.pred p with
              | none => exact absurd (SortedMap.lowerPos_eq_zero.mpr hpr) hbegin
              | some e =>
                  simp only [Option.bind_some]
                  split
                  · rfl
                  · rfl

-- ===================================================== tables with sentinel

/-- A table without masks, with the sentinel, whose objects know their
key and whose blocks neither wrap nor hold another key. -/
structure PointTable (allocs : AllocId → Allocation) (t : AllocationTable) : Prop where
  maskFree : t.MaskFree
  sentinel : ∃ a, t.sortedAllocationTable.find? maxAddr = some a ∧ (allocs a).length = 0
  pointer : ∀ k a, t.sortedAllocationTable.find? k = some a → (allocs a).pointer = k
  fits : ∀ k a, t.sortedAllocationTable.find? k = some a →
    k.toNat + (allocs a).length.toNat ≤ 2 ^ 64
  apart : ∀ k k' a a', t.sortedAllocationTable.find? k = some a →
    t.sortedAllocationTable.find? k' = some a' → k ≠ k' →
      ¬ (k.toNat ≤ k'.toNat ∧ k'.toNat < k.toNat + (allocs a).length.toNat)

section Exact

variable {allocs : AllocId → Allocation} {t : AllocationTable}

theorem toNat_le_maxAddr (p : Addr) : p.toNat ≤ maxAddr.toNat := by
  have hlt := p.toNat_lt
  have hmax : maxAddr.toNat = 2 ^ 64 - 1 := rfl
  omega

/-- The sentinel keeps every block off the highest address, so no end
wraps. -/
theorem PointTable.fits_lt (h : PointTable allocs t) {k : Addr} {a : AllocId}
    (hk : t.sortedAllocationTable.find? k = some a) :
    k.toNat + (allocs a).length.toNat < 2 ^ 64 := by
  have hmax : maxAddr.toNat = 2 ^ 64 - 1 := rfl
  have hle := toNat_le_maxAddr k
  obtain ⟨s, hs, hlen⟩ := h.sentinel
  by_cases heq : k = maxAddr
  · subst heq
    rw [hs] at hk
    injection hk with hk
    subst hk
    have hzero : (allocs s).length.toNat = 0 := by
      rw [hlen]
      rfl
    omega
  · have hnot := h.apart k maxAddr a s hk hs heq
    omega

/-- At most one entry covers an address. -/
theorem PointTable.covers_unique (h : PointTable allocs t) {k k' p : Addr} {a a' : AllocId}
    (hk : t.sortedAllocationTable.find? k = some a)
    (hk' : t.sortedAllocationTable.find? k' = some a')
    (hc : Covers k (allocs a).length p) (hc' : Covers k' (allocs a').length p) : k = k' := by
  by_contra hne
  have h1 := h.apart k k' a a' hk hk' hne
  have h2 := h.apart k' k a' a hk' hk (Ne.symm hne)
  have hne' : k.toNat ≠ k'.toNat := fun heq => hne (UInt64.toNat_inj.mp heq)
  rcases hc with rfl | hc
  · rcases hc' with rfl | hc'
    · exact hne rfl
    · exact h2 hc'
  · rcases hc' with rfl | hc'
    · exact h1 hc
    · omega

/-- The closest key below an address that some entry covers is that
entry's. -/
theorem PointTable.gap_of_covers (h : PointTable allocs t) {k p : Addr} {a : AllocId}
    (hk : t.sortedAllocationTable.find? k = some a)
    (hc : k.toNat ≤ p.toNat ∧ p.toNat < k.toNat + (allocs a).length.toNat) (j : Addr)
    (hkj : k < j) (hjp : j < p) : t.sortedAllocationTable.find? j = none := by
  cases hj : t.sortedAllocationTable.find? j with
  | none => rfl
  | some b =>
      rw [UInt64.lt_iff_toNat_lt] at hkj hjp
      have hne : k ≠ j := by
        rintro rfl
        exact Nat.lt_irrefl _ hkj
      exact absurd ⟨Nat.le_of_lt hkj, by omega⟩ (h.apart k j a b hk hj hne)

/-- Every address below the highest has the sentinel above it. -/
theorem PointTable.above (h : PointTable allocs t) {p : Addr}
    (hp : t.sortedAllocationTable.find? p = none) :
    ∃ j b, t.sortedAllocationTable.find? j = some b ∧ p < j := by
  obtain ⟨s, hs, -⟩ := h.sentinel
  refine ⟨maxAddr, s, hs, ?_⟩
  rw [UInt64.lt_iff_toNat_lt]
  refine Nat.lt_of_le_of_ne (toNat_le_maxAddr p) fun heq => ?_
  rw [UInt64.toNat_inj.mp heq, hs] at hp
  cases hp

/-- The lookup is exact: its answer is the object of the one entry that
covers the address, it has no answer when none does, and its iterator
stays in the table. -/
theorem findAllocation_exact (h : PointTable allocs t) (p : Addr) :
    (∀ a, findAllocation allocs t p = some a ↔
        ∃ k, t.sortedAllocationTable.find? k = some a ∧ Covers k (allocs a).length p)
      ∧ (∀ k k' a a', t.sortedAllocationTable.find? k = some a →
          t.sortedAllocationTable.find? k' = some a' → Covers k (allocs a).length p →
          Covers k' (allocs a').length p → k = k' ∧ a = a')
      ∧ findAllocationIter allocs t p = some (findAllocation allocs t p) := by
  refine ⟨fun a => ?_, fun k k' a a' hk hk' hc hc' => ?_, findAllocationIter_eq allocs t p⟩
  · rw [h.maskFree.findAllocation_eq, findSorted_eq_some]
    constructor
    · intro hf
      rcases hf with hp | ⟨-, -, k, hk, hlt, -, halias⟩
      · exact ⟨p, hp, Or.inl rfl⟩
      · rw [ne_eq, doesItAlias_eq_neg_one (h.fits_lt hk), not_not] at halias
        exact ⟨k, hk, Or.inr halias⟩
    · intro hf
      obtain ⟨k, hk, hc⟩ := hf
      cases hp : t.sortedAllocationTable.find? p with
      | some b =>
          have hkp := h.covers_unique hk hp hc (Or.inl rfl)
          rw [hkp, hp] at hk
          exact Or.inl hk
      | none =>
          have hin : k.toNat ≤ p.toNat ∧ p.toNat < k.toNat + (allocs a).length.toNat := by
            rcases hc with rfl | hin
            · rw [hp] at hk
              cases hk
            · exact hin
          have hlt : k < p := by
            rw [UInt64.lt_iff_toNat_lt]
            refine Nat.lt_of_le_of_ne hin.1 fun heq => ?_
            rw [UInt64.toNat_inj.mp heq, hp] at hk
            cases hk
          refine Or.inr ⟨rfl, h.above hp, k, hk, hlt, h.gap_of_covers hk hin, ?_⟩
          rw [ne_eq, doesItAlias_eq_neg_one (h.fits_lt hk), not_not]
          exact hin
  · have hkk := h.covers_unique hk hk' hc hc'
    rw [← hkk, hk] at hk'
    injection hk' with ha
    exact ⟨hkk, ha⟩

/-- One block of 16 bytes under the sentinel. -/
def oneBlock : (AllocId → Allocation) × AllocationTable :=
  (Function.update texasInit.allocs 1 (Allocation.new 0x1000 16 7),
    { texasInit.allocationMap with
      sortedAllocationTable :=
        texasInit.allocationMap.sortedAllocationTable.insert 0x1000 1 })

theorem find?_oneBlock {k : Addr} {a : AllocId} :
    oneBlock.2.sortedAllocationTable.find? k = some a ↔
      (k = 0x1000 ∧ a = 1) ∨ (k = maxAddr ∧ a = 0) := by
  rw [← SortedMap.mem_entries_iff]
  show (k, a) ∈ [(0x1000, 1), (maxAddr, 0)] ↔ _
  simp

theorem pointTable_oneBlock : PointTable oneBlock.1 oneBlock.2 where
  maskFree := ⟨rfl, rfl, rfl⟩
  sentinel := ⟨0, rfl, rfl⟩
  pointer k a h := by
    rcases find?_oneBlock.mp h with ⟨rfl, rfl⟩ | ⟨rfl, rfl⟩
    · rfl
    · rfl
  fits k a h := by
    rcases find?_oneBlock.mp h with ⟨rfl, rfl⟩ | ⟨rfl, rfl⟩
    · decide
    · decide
  apart k k' a a' h h' hne := by
    rcases find?_oneBlock.mp h with ⟨rfl, rfl⟩ | ⟨rfl, rfl⟩
    · rcases find?_oneBlock.mp h' with ⟨rfl, rfl⟩ | ⟨rfl, rfl⟩
      · exact absurd rfl hne
      · decide
    · rcases find?_oneBlock.mp h' with ⟨rfl, rfl⟩ | ⟨rfl, rfl⟩
      · decide
      · exact absurd rfl hne

/-- The last byte of the block is found, the first one past it is not. -/
theorem findAllocation_exact_oneBlock :
    findAllocation oneBlock.1 oneBlock.2 0x100f = some 1
      ∧ findAllocation oneBlock.1 oneBlock.2 0x1010 = none := by
  constructor
  · refine ((findAllocation_exact pointTable_oneBlock 0x100f).1 1).mpr ⟨0x1000, rfl, Or.inr ?_⟩
    decide
  · rw [Option.eq_none_iff_forall_ne_some]
    intro a hf
    obtain ⟨k, hk, hc⟩ := ((findAllocation_exact pointTable_oneBlock 0x1010).1 a).mp hf
    rcases find?_oneBlock.mp hk with ⟨rfl, rfl⟩ | ⟨rfl, rfl⟩
    · rcases hc with hc | hc
      · exact absurd hc (by decide)
      · exact absurd hc (by decide)
    · rcases hc with hc | hc
      · exact absurd hc (by decide)
      · exact absurd hc (by decide)

end Exact

end Carmot.Texas
