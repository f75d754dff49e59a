/-
Allocation lookup over whole runs of adds and frees.

The specification is the list of live ranges a real allocator keeps:
`AllocatorRun` grows and shrinks it along a sequence of entries, under
the allocator's own rules (a new range is disjoint from the live ones,
a freed address is the base of a live one). `LookupExact` says that the
table answers every address as the list does, offset included.

What the table always gets right is its keys (`Keyed`): they are the
bases of the live ranges and the sentinel, each with the object of the
range's origin. What it gets right only while no two live ranges share
an origin is the objects' pointer and length (`Shaped`), because the
object of an origin is overwritten by each new range. Two live ranges
of one origin have one object, which points at only one of them.
-/
import Mathlib.Data.List.Pairwise
import Carmot.Lib.Range
import Carmot.Texas.Producer
import Carmot.Texas.Proofs.Conservation
import Carmot.Texas.Proofs.PointLookup

namespace Carmot.Texas

open Carmot.Lib

-- ============================================================ the allocator

/-- A live allocation: its range and the origin it was reported with. -/
structure LiveRange extends Range where
  origin : UInt64

/-- A run in which the adds and frees are those of a real allocator,
from one list of live ranges to another. -/
inductive AllocatorRun : List LiveRange → List ShadowEntry → List LiveRange → Prop
  | nil (live : List LiveRange) : AllocatorRun live [] live
  | add {live live' : List LiveRange} {e : ShadowEntry} {es : List ShadowEntry}
      (r : LiveRange) (hop : e.operation = .allocAdd) (hptr : e.ptr = r.base)
      (hsize : e.sizeState.getSize = r.length) (horigin : e.information = r.origin)
      (hdisj : ∀ r' ∈ live, r.Disjoint r'.toRange)
      (rest : AllocatorRun (r :: live) es live') : AllocatorRun live (e :: es) live'
  | free {live live' : List LiveRange} {e : ShadowEntry} {es : List ShadowEntry}
      (r : LiveRange) (hmem : r ∈ live) (hop : e.operation = .allocFree)
      (hptr : e.ptr = r.base)
      (rest : AllocatorRun (live.filter fun r' => decide (r'.base ≠ r.base)) es live') :
      AllocatorRun live (e :: es) live'
  | other {live live' : List LiveRange} {e : ShadowEntry} {es : List ShadowEntry}
      (hadd : e.operation ≠ .allocAdd) (hfree : e.operation ≠ .allocFree)
      (rest : AllocatorRun live es live') : AllocatorRun live (e :: es) live'

/-- No two live ranges have the same origin. -/
def DistinctOrigins (live : List LiveRange) : Prop :=
  live.Pairwise fun r r' => r.origin ≠ r'.origin

/-- The table finds exactly the live ranges, and the offset computed
from the object it finds is the offset in the range. -/
def LookupExact (rt : Runtime) (live : List LiveRange) : Prop :=
  ∀ p, p < maxAddr →
    ((rt.find p).isSome ↔ ∃ r ∈ live, r.Contains p)
      ∧ ∀ a, rt.find p = some a → ∀ r ∈ live, r.Contains p →
        p - (rt.allocs a).pointer = p - r.base
          ∧ p - (rt.allocs a).pointer < r.length

namespace AllocatorRun

variable {live mid live' : List LiveRange} {es fs : List ShadowEntry}

theorem append (h : AllocatorRun live es mid) (h' : AllocatorRun mid fs live') :
    AllocatorRun live (es ++ fs) live' := by
  induction h with
  | nil _ => exact h'
  | add r hop hptr hsize horigin hdisj _ ih =>
      exact .add r hop hptr hsize horigin hdisj (ih h')
  | free r hmem hop hptr _ ih => exact .free r hmem hop hptr (ih h')
  | other hadd hfree _ ih => exact .other hadd hfree (ih h')

theorem split (h : AllocatorRun live (es ++ fs) live') :
    ∃ mid, AllocatorRun live es mid ∧ AllocatorRun mid fs live' := by
  induction es generalizing live with
  | nil => exact ⟨live, .nil live, h⟩
  | cons e es ih =>
      cases h with
      | add r hop hptr hsize horigin hdisj rest =>
          obtain ⟨mid, h₁, h₂⟩ := ih rest
          exact ⟨mid, .add r hop hptr hsize horigin hdisj h₁, h₂⟩
      | free r hmem hop hptr rest =>
          obtain ⟨mid, h₁, h₂⟩ := ih rest
          exact ⟨mid, .free r hmem hop hptr h₁, h₂⟩
      | other hadd hfree rest =>
          obtain ⟨mid, h₁, h₂⟩ := ih rest
          exact ⟨mid, .other hadd hfree h₁, h₂⟩

/-- The entries determine the live ranges. -/
theorem det (h : AllocatorRun live es mid) : AllocatorRun live es live' → mid = live' := by
  induction h with
  | nil _ => intro h'; cases h'; rfl
  | add r hop hptr hsize horigin _ _ ih =>
      intro h'
      cases h' with
      | add r' _ hptr' hsize' horigin' _ rest =>
          have hrr : r' = r := by
            obtain ⟨⟨b, l, _, _⟩, o⟩ := r
            obtain ⟨⟨b', l', _, _⟩, o'⟩ := r'
            have hb : b' = b := hptr'.symm.trans hptr
            have hl : l' = l := hsize'.symm.trans hsize
            have ho : o' = o := horigin'.symm.trans horigin
            subst hb hl ho
            rfl
          rw [hrr] at rest
          exact ih rest
      | free _ _ hop' _ _ => rw [hop] at hop'; cases hop'
      | other hadd' _ _ => exact absurd hop hadd'
  | free r _ hop hptr _ ih =>
      intro h'
      cases h' with
      | add _ hop' _ _ _ _ _ => rw [hop] at hop'; cases hop'
      | free r' _ _ hptr' rest =>
          rw [← hptr', hptr] at rest
          exact ih rest
      | other _ hfree' _ => exact absurd hop hfree'
  | other hadd hfree _ ih =>
      intro h'
      cases h' with
      | add _ hop' _ _ _ _ _ => exact absurd hop' hadd
      | free _ _ hop' _ _ => exact absurd hop' hfree
      | other _ _ rest => exact ih rest

/-- Without frees the live ranges only grow. -/
theorem suffix (h : AllocatorRun live es live')
    (hno : ∀ e ∈ es, e.operation ≠ .allocFree) : live <:+ live' := by
  induction h with
  | nil live => exact List.suffix_refl live
  | add r _ _ _ _ _ _ ih =>
      exact (List.suffix_cons r _).trans (ih fun e he => hno e (List.mem_cons_of_mem _ he))
  | free r _ hop _ _ _ => exact absurd hop (hno _ (List.mem_cons_self ..))
  | other _ _ _ ih => exact ih fun e he => hno e (List.mem_cons_of_mem _ he)

end AllocatorRun

theorem DistinctOrigins.of_suffix {live live' : List LiveRange}
    (h : DistinctOrigins live') (hsub : live <:+ live') : DistinctOrigins live :=
  h.sublist hsub.sublist

/-- Live ranges of distinct origins are told apart by them. -/
theorem DistinctOrigins.eq {live : List LiveRange} (h : DistinctOrigins live)
    {r r' : LiveRange} (hr : r ∈ live) (hr' : r' ∈ live) (ho : r.origin = r'.origin) :
    r = r' := by
  by_contra hne
  have hsymm : Std.Symm fun r r' : LiveRange => r.origin ≠ r'.origin :=
    ⟨fun _ _ h => h.symm⟩
  exact h.forall hr hr' hne ho

-- ================================================================= the keys

/-- The keys of the table are the bases of the live ranges, each with
the object of its origin, and the sentinel. -/
structure Keyed (rt : Runtime) (live : List LiveRange) : Prop where
  inv : TableInv rt
  keys : ∀ k a, rt.allocationMap.sortedAllocationTable.find? k = some a ↔
    (k = maxAddr ∧ a = 0) ∨ ∃ r ∈ live, r.base = k ∧ rt.originToAllocMap r.origin = some a
  known : ∀ r ∈ live, ∃ a, rt.originToAllocMap r.origin = some a
  origins_inj : ∀ o o' a, rt.originToAllocMap o = some a →
    rt.originToAllocMap o' = some a → o = o'
  origins_pos : ∀ o a, rt.originToAllocMap o = some a → a ≠ 0
  disjoint : live.Pairwise fun r r' => r.toRange.Disjoint r'.toRange

/-- The object of every live range has its pointer and length. -/
def Shaped (rt : Runtime) (live : List LiveRange) : Prop :=
  ∀ r ∈ live, ∀ a, rt.originToAllocMap r.origin = some a →
    (rt.allocs a).pointer = r.base ∧ (rt.allocs a).length = r.length

theorem base_lt_maxAddr (r : Range) : r.base < maxAddr :=
  UInt64.lt_iff_toNat_lt.mpr (Range.lt_max_of_contains r.contains_base)

theorem keyed_init : Keyed texasInit [] where
  inv := tableInv_init
  keys k a := by
    have hfind : texasInit.allocationMap.sortedAllocationTable.find? k
        = if k = maxAddr then some 0 else none := SortedMap.find?_insert ..
    rw [hfind]
    by_cases hk : k = maxAddr
    · simp [hk, eq_comm]
    · simp [hk]
  known r hr := absurd hr List.not_mem_nil
  origins_inj o o' a h := by cases h
  origins_pos o a h := by cases h
  disjoint := List.Pairwise.nil

/-- Keys and shapes are read off the table and the objects' shape. -/
theorem Keyed.of_sameTable {rt rt' : Runtime} {live : List LiveRange}
    (hk : Keyed rt live) (hsame : SameTable rt rt') (hinv : TableInv rt') :
    Keyed rt' live where
  inv := hinv
  keys := by
    rw [hsame.table, hsame.origins]
    exact hk.keys
  known := by
    rw [hsame.origins]
    exact hk.known
  origins_inj := by
    rw [hsame.origins]
    exact hk.origins_inj
  origins_pos := by
    rw [hsame.origins]
    exact hk.origins_pos
  disjoint := hk.disjoint

theorem Shaped.of_sameTable {rt rt' : Runtime} {live : List LiveRange}
    (hs : Shaped rt live) (hsame : SameTable rt rt') : Shaped rt' live := by
  intro r hr a ha
  rw [hsame.origins] at ha
  rw [hsame.pointer, hsame.length]
  exact hs r hr a ha

section Step

variable {env : Env} {rt rt' : Runtime} {live : List LiveRange} {e : ShadowEntry}
  {r : LiveRange} {a : AllocId}

/-- No live range and not the sentinel starts where a new range does. -/
theorem Keyed.base_absent (hk : Keyed rt live)
    (hdisj : ∀ r' ∈ live, r.Disjoint r'.toRange) :
    rt.allocationMap.sortedAllocationTable.find? r.base = none := by
  cases hf : rt.allocationMap.sortedAllocationTable.find? r.base with
  | none => rfl
  | some b =>
      rcases (hk.keys _ _).mp hf with ⟨hmax, -⟩ | ⟨r', hr', hbase, -⟩
      · have hlt := base_lt_maxAddr r.toRange
        rw [hmax] at hlt
        exact absurd hlt (UInt64.lt_irrefl _)
      · exact absurd hbase.symm (hdisj r' hr').base_ne

/-- Origins keep their objects. -/
theorem AddAlloc.origin_mono (h : AddAlloc rt rt' e a) {o : UInt64} {b : AllocId}
    (ho : rt.originToAllocMap o = some b) : rt'.originToAllocMap o = some b := by
  rw [h.origins]
  by_cases heq : o = e.information
  · subst heq
    rw [if_pos rfl, h.old b ho]
  · rw [if_neg heq, ho]

theorem AddAlloc.origin_self (h : AddAlloc rt rt' e a) :
    rt'.originToAllocMap e.information = some a := by
  rw [h.origins, if_pos rfl]

/-- An origin mapped to the new entry's object is the entry's. -/
theorem AddAlloc.origin_eq (hk : Keyed rt live) (h : AddAlloc rt rt' e a) {o : UInt64}
    (ho : rt.originToAllocMap o = some a) : o = e.information := by
  cases hi : rt.originToAllocMap e.information with
  | none =>
      have hlt := hk.inv.origins_lt o a ho
      rw [h.fresh hi] at hlt
      exact absurd hlt (Nat.lt_irrefl _)
  | some b =>
      rw [h.old b hi] at hi
      exact hk.origins_inj o e.information a ho hi

theorem AddAlloc.origins_inj (hk : Keyed rt live) (h : AddAlloc rt rt' e a)
    (o o' : UInt64) (b : AllocId) (ho : rt'.originToAllocMap o = some b)
    (ho' : rt'.originToAllocMap o' = some b) : o = o' := by
  rw [h.origins] at ho ho'
  by_cases h₁ : o = e.information
  · by_cases h₂ : o' = e.information
    · rw [h₁, h₂]
    · rw [if_pos h₁] at ho
      rw [if_neg h₂] at ho'
      injection ho with ho
      subst ho
      rw [h₁, h.origin_eq hk ho']
  · by_cases h₂ : o' = e.information
    · rw [if_neg h₁] at ho
      rw [if_pos h₂] at ho'
      injection ho' with ho'
      subst ho'
      rw [h₂, h.origin_eq hk ho]
    · rw [if_neg h₁] at ho
      rw [if_neg h₂] at ho'
      exact hk.origins_inj o o' b ho ho'

/-- The sentinel is no origin's object. -/
theorem AddAlloc.origins_pos (hk : Keyed rt live) (h : AddAlloc rt rt' e a)
    (o : UInt64) (b : AllocId) (ho : rt'.originToAllocMap o = some b) : b ≠ 0 := by
  have hsentinel : 0 < rt.numAllocs := hk.inv.objects_lt 0
    (hk.inv.maskFree.mem_objects.mpr ⟨maxAddr, (hk.keys _ _).mpr (Or.inl ⟨rfl, rfl⟩)⟩)
  rw [h.origins] at ho
  split at ho
  · injection ho with ho
    subst ho
    cases hi : rt.originToAllocMap e.information with
    | none =>
        rw [h.fresh hi]
        exact Nat.ne_of_gt hsentinel
    | some c =>
        rw [← h.old c hi]
        exact hk.origins_pos _ c hi
  · exact hk.origins_pos o b ho

/-- An add keys the new range's base. -/
theorem Keyed.add (hk : Keyed rt live) (h : AddAlloc rt rt' e a) (hptr : e.ptr = r.base)
    (horigin : e.information = r.origin) (hdisj : ∀ r' ∈ live, r.Disjoint r'.toRange) :
    Keyed rt' (r :: live) := by
  have hself : rt'.originToAllocMap r.origin = some a := horigin ▸ h.origin_self
  have hold : ∀ r' ∈ live, ∀ b, rt'.originToAllocMap r'.origin = some b ↔
      rt.originToAllocMap r'.origin = some b := by
    intro r' hr' b
    constructor
    · intro hb
      obtain ⟨c, hc⟩ := hk.known r' hr'
      have hbc := (h.origin_mono hc).symm.trans hb
      rw [hc, hbc]
    · exact h.origin_mono
  refine ⟨hk.inv.addAlloc h, ?_, ?_, h.origins_inj hk, h.origins_pos hk,
    List.pairwise_cons.mpr ⟨hdisj, hk.disjoint⟩⟩
  · intro k b
    rw [h.table]
    show (rt.allocationMap.sortedAllocationTable.insert e.ptr a).find? k = some b ↔ _
    rw [SortedMap.find?_insert, hptr]
    by_cases hkb : k = r.base
    · subst hkb
      rw [if_pos rfl, hk.base_absent hdisj, Option.getD_none]
      constructor
      · intro heq
        injection heq with heq
        exact Or.inr ⟨r, List.mem_cons_self .., rfl, heq ▸ hself⟩
      · intro h
        rcases h with ⟨hmax, -⟩ | ⟨r', hr', hbase, ho⟩
        · have hlt := base_lt_maxAddr r.toRange
          rw [hmax] at hlt
          exact absurd hlt (UInt64.lt_irrefl _)
        · rcases List.mem_cons.mp hr' with rfl | hr'
          · rw [← ho, hself]
          · exact absurd hbase.symm (hdisj r' hr').base_ne
    · rw [if_neg hkb, hk.keys]
      constructor
      · intro h
        rcases h with h₁ | ⟨r', hr', hbase, ho⟩
        · exact Or.inl h₁
        · exact Or.inr ⟨r', List.mem_cons_of_mem _ hr', hbase, (hold r' hr' b).mpr ho⟩
      · intro h
        rcases h with h₁ | ⟨r', hr', hbase, ho⟩
        · exact Or.inl h₁
        · rcases List.mem_cons.mp hr' with rfl | hr'
          · exact absurd hbase.symm hkb
          · exact Or.inr ⟨r', hr', hbase, (hold r' hr' b).mp ho⟩
  · intro r' hr'
    rcases List.mem_cons.mp hr' with rfl | hr'
    · exact ⟨a, hself⟩
    · obtain ⟨b, hb⟩ := hk.known r' hr'
      exact ⟨b, h.origin_mono hb⟩

/-- An add of an origin no live range has leaves their objects alone. -/
theorem Shaped.add (hk : Keyed rt live) (hs : Shaped rt live) (h : AddAlloc rt rt' e a)
    (hptr : e.ptr = r.base) (hsize : e.sizeState.getSize = r.length)
    (horigin : e.information = r.origin) (hdist : DistinctOrigins (r :: live)) :
    Shaped rt' (r :: live) := by
  intro r' hr' b hb
  rcases List.mem_cons.mp hr' with rfl | hr'
  · rw [← horigin, h.origin_self] at hb
    injection hb with hb
    subst hb
    exact ⟨h.pointer.trans hptr, h.length.trans hsize⟩
  · have hne : r.origin ≠ r'.origin := (List.pairwise_cons.mp hdist).1 r' hr'
    have hb' : rt.originToAllocMap r'.origin = some b := by
      rw [h.origins, horigin, if_neg (Ne.symm hne)] at hb
      exact hb
    have hba : b ≠ a := by
      intro heq
      subst heq
      exact hne (horigin.symm.trans (h.origin_eq hk hb').symm)
    rw [h.others b hba]
    exact hs r' hr' b hb'

/-- The base of a live range is found. -/
theorem Keyed.find_base (hk : Keyed rt live) (hr : r ∈ live) :
    ∃ a, rt.find r.base = some a ∧ rt.originToAllocMap r.origin = some a := by
  obtain ⟨a, ha⟩ := hk.known r hr
  exact ⟨a, hk.inv.maskFree.findAllocation_of_key rt.allocs
    ((hk.keys _ _).mpr (Or.inr ⟨r, hr, rfl, ha⟩)), ha⟩

/-- Different live ranges are disjoint. -/
theorem Keyed.disjoint_of_ne (hk : Keyed rt live) {r' : LiveRange} (hr : r ∈ live)
    (hr' : r' ∈ live) (hne : r ≠ r') : r.Disjoint r'.toRange := by
  have hsymm : Std.Symm fun r r' : LiveRange => r.toRange.Disjoint r'.toRange :=
    ⟨fun _ _ h => h.symm⟩
  exact hk.disjoint.forall hr hr' hne

/-- Erasing the base of a live range from the table is erasing the
range from the list. -/
theorem Keyed.free (hk : Keyed rt live) (hinv : TableInv rt')
    (htable : rt'.allocationMap.sortedAllocationTable
      = rt.allocationMap.sortedAllocationTable.erase r.base)
    (horigins : rt'.originToAllocMap = rt.originToAllocMap) :
    Keyed rt' (live.filter fun r' => decide (r'.base ≠ r.base)) := by
  refine ⟨hinv, ?_, ?_, ?_, ?_, hk.disjoint.filter _⟩
  · intro k b
    rw [htable, SortedMap.find?_erase, horigins]
    by_cases hkb : k = r.base
    · rw [if_pos hkb]
      constructor
      · intro h
        cases h
      · intro h
        rcases h with ⟨hmax, -⟩ | ⟨r', hr', hbase, -⟩
        · have hlt := base_lt_maxAddr r.toRange
          rw [← hkb, hmax] at hlt
          exact absurd hlt (UInt64.lt_irrefl _)
        · have hne := of_decide_eq_true (List.mem_filter.mp hr').2
          exact absurd (hbase.trans hkb) hne
    · rw [if_neg hkb, hk.keys]
      constructor
      · intro h
        rcases h with h | ⟨r', hr', hbase, ho⟩
        · exact Or.inl h
        · refine Or.inr ⟨r', List.mem_filter.mpr ⟨hr', ?_⟩, hbase, ho⟩
          exact decide_eq_true fun h => hkb (hbase.symm.trans h)
      · intro h
        rcases h with h | ⟨r', hr', hbase, ho⟩
        · exact Or.inl h
        · exact Or.inr ⟨r', (List.mem_filter.mp hr').1, hbase, ho⟩
  · intro r' hr'
    rw [horigins]
    exact hk.known r' (List.mem_filter.mp hr').1
  · rw [horigins]
    exact hk.origins_inj
  · rw [horigins]
    exact hk.origins_pos

/-- A free of a live base: the object it finds is committed, the key
erased, every object keeps its shape. -/
theorem freeEntry_frame (env : Env) (hk : Keyed rt live) (hr : r ∈ live)
    (hop : e.operation = .allocFree) (hptr : e.ptr = r.base) :
    Keyed (processEntry env rt e) (live.filter fun r' => decide (r'.base ≠ r.base))
      ∧ (processEntry env rt e).originToAllocMap = rt.originToAllocMap
      ∧ ∀ b, ((processEntry env rt e).allocs b).pointer = (rt.allocs b).pointer
        ∧ ((processEntry env rt e).allocs b).length = (rt.allocs b).length := by
  obtain ⟨a, hfind, -⟩ := hk.find_base hr
  have heq : processEntry env rt e
      = { commitStateInfo env.tree e.affiliatedState rt a with
          allocationMap := deleteAllocation rt.allocationMap e.ptr } := by
    simp only [processEntry, hop, processFreeAllocation, hptr, hfind]
    rfl
  have hinv : TableInv (processEntry env rt e) :=
    (processEntry_spec env _ hk.inv).inv
  have hsame := @sameTable_commitStateInfo env.tree rt e.affiliatedState a
  rw [heq] at hinv ⊢
  refine ⟨hk.free hinv ?_ rfl, rfl, fun b => ⟨hsame.pointer b, hsame.length b⟩⟩
  show (deleteAllocation rt.allocationMap e.ptr).sortedAllocationTable = _
  rw [hk.inv.maskFree.deleteAllocation_eq, hptr]

end Step

-- ================================================================== lookups

section Exact

variable {rt : Runtime} {live : List LiveRange}

/-- The alias test of the search is membership in the range. -/
theorem doesItAlias_eq (r : Range) (p : Addr) :
    doesItAlias r.base r.length p = -1 ↔ ¬ r.Contains p := by
  rw [doesItAlias_eq_neg_one r.fits, Range.contains_iff]

/-- A key that is not the sentinel's is the base of a live range. -/
theorem Keyed.range_of_key (hk : Keyed rt live) {k p : Addr} {a : AllocId}
    (hf : rt.allocationMap.sortedAllocationTable.find? k = some a) (hkp : k ≤ p)
    (hp : p < maxAddr ∨ a ≠ 0) :
    ∃ r ∈ live, r.base = k ∧ rt.originToAllocMap r.origin = some a := by
  rcases (hk.keys k a).mp hf with ⟨hmax, hzero⟩ | h
  · rcases hp with hp | ha
    · rw [hmax, UInt64.le_iff_toNat_le] at hkp
      rw [UInt64.lt_iff_toNat_lt] at hp
      omega
    · exact absurd hzero ha
  · exact h

/-- What is found is a live range. -/
theorem Keyed.contains_of_find (hk : Keyed rt live) (hs : Shaped rt live) {p : Addr}
    {a : AllocId} (hp : p < maxAddr ∨ a ≠ 0) (hf : rt.find p = some a) :
    ∃ r ∈ live, r.Contains p ∧ rt.originToAllocMap r.origin = some a := by
  unfold Runtime.find at hf
  rw [hk.inv.maskFree.findAllocation_eq, findSorted_eq_some] at hf
  rcases hf with hkey | ⟨-, -, k, hkey, hlt, -, halias⟩
  · obtain ⟨r, hr, hbase, ho⟩ := hk.range_of_key hkey (UInt64.le_refl _) hp
    exact ⟨r, hr, hbase ▸ r.contains_base, ho⟩
  · obtain ⟨r, hr, hbase, ho⟩ := hk.range_of_key hkey (UInt64.le_of_lt hlt) hp
    rw [(hs r hr a ho).2, ← hbase, ne_eq, doesItAlias_eq, not_not] at halias
    exact ⟨r, hr, halias, ho⟩

/-- No live range starts inside another. -/
theorem Keyed.base_eq_of_contains (hk : Keyed rt live) {r r' : LiveRange} (hr : r ∈ live)
    (hr' : r' ∈ live) (hc : r.Contains r'.base) : r' = r := by
  by_contra hne
  exact hk.disjoint_of_ne hr' hr hne r'.base r'.contains_base hc

/-- An address of a live range finds the range's object. -/
theorem Keyed.find_eq (hk : Keyed rt live) (hs : Shaped rt live) {p : Addr} {r : LiveRange}
    (hr : r ∈ live) (hc : r.Contains p) {a : AllocId}
    (ha : rt.originToAllocMap r.origin = some a) : rt.find p = some a := by
  have hp : p < maxAddr := UInt64.lt_iff_toNat_lt.mpr (Range.lt_max_of_contains hc)
  have hkey : rt.allocationMap.sortedAllocationTable.find? r.base = some a :=
    (hk.keys _ _).mpr (Or.inr ⟨r, hr, rfl, ha⟩)
  -- a key at or below `p` that is not below the range's base is that base
  have hown : ∀ j b, rt.allocationMap.sortedAllocationTable.find? j = some b →
      r.base ≤ j → j ≤ p → j = r.base := by
    intro j b hj hle hjp
    obtain ⟨r', hr', hbase, -⟩ := hk.range_of_key hj hjp (Or.inl hp)
    have hin : r.Contains r'.base := by
      rw [Range.contains_iff] at hc ⊢
      rw [UInt64.le_iff_toNat_le] at hle hjp
      rw [hbase]
      omega
    rw [← hbase, hk.base_eq_of_contains hr hr' hin]
  unfold Runtime.find
  rw [hk.inv.maskFree.findAllocation_eq, findSorted_eq_some]
  cases hfp : rt.allocationMap.sortedAllocationTable.find? p with
  | some b =>
      rw [hown p b hfp hc.1 (UInt64.le_refl _), hkey] at hfp
      exact Or.inl hfp.symm
  | none =>
      have hlt : r.base < p := by
        rw [UInt64.lt_iff_toNat_lt]
        refine Nat.lt_of_le_of_ne (UInt64.le_iff_toNat_le.mp hc.1) fun heq => ?_
        rw [UInt64.toNat_inj.mp heq, hfp] at hkey
        cases hkey
      -- the sentinel is never below an address
      have habove : ∃ j b, rt.allocationMap.sortedAllocationTable.find? j = some b ∧ p < j :=
        ⟨maxAddr, 0, (hk.keys _ _).mpr (Or.inl ⟨rfl, rfl⟩), hp⟩
      refine Or.inr ⟨rfl, habove, r.base, hkey, hlt, fun j hj hjp => ?_, ?_⟩
      · cases hfj : rt.allocationMap.sortedAllocationTable.find? j with
        | none => rfl
        | some b =>
            have hjb := hown j b hfj (UInt64.le_of_lt hj) (UInt64.le_of_lt hjp)
            rw [hjb] at hj
            exact absurd hj (UInt64.lt_irrefl _)
      · rw [(hs r hr a ha).2, ne_eq, doesItAlias_eq, not_not]
        exact hc

theorem Keyed.lookupExact (hk : Keyed rt live) (hs : Shaped rt live) :
    LookupExact rt live := by
  intro p hp
  refine ⟨⟨fun h => ?_, fun h => ?_⟩, fun a hf r hr hc => ?_⟩
  · obtain ⟨a, ha⟩ := Option.isSome_iff_exists.mp h
    obtain ⟨r, hr, hc, -⟩ := hk.contains_of_find hs (Or.inl hp) ha
    exact ⟨r, hr, hc⟩
  · obtain ⟨r, hr, hc⟩ := h
    obtain ⟨a, ha⟩ := hk.known r hr
    rw [hk.find_eq hs hr hc ha]
    rfl
  · obtain ⟨r', hr', hc', ho⟩ := hk.contains_of_find hs (Or.inl hp) hf
    have hrr : r' = r := by
      by_contra hne
      exact hk.disjoint_of_ne hr' hr hne p hc' hc
    subst hrr
    rw [(hs r' hr' a ho).1]
    exact ⟨rfl, Range.sub_base_lt hc'⟩

/-- Exact lookups tell live ranges apart by their origins: a shared
object cannot point at both. -/
theorem Keyed.distinct_of_exact (hk : Keyed rt live) (hex : LookupExact rt live) :
    DistinctOrigins live := by
  have hpointer : ∀ r ∈ live, ∀ a, rt.originToAllocMap r.origin = some a →
      (rt.allocs a).pointer = r.base := by
    intro r hr a ha
    obtain ⟨b, hfind, hb⟩ := hk.find_base hr
    rw [ha] at hb
    injection hb with hb
    subst hb
    have hoff := ((hex r.base (base_lt_maxAddr r.toRange)).2 a hfind r hr
      r.contains_base).1
    have hsum : r.base - (rt.allocs a).pointer + (rt.allocs a).pointer
        = r.base - r.base + (rt.allocs a).pointer := by rw [hoff]
    rw [UInt64.sub_add_cancel, UInt64.sub_self, UInt64.zero_add] at hsum
    exact hsum.symm
  apply hk.disjoint.imp_of_mem
  intro r r' hr hr' hdis heq
  obtain ⟨a, ha⟩ := hk.known r hr
  have hbase := (hpointer r hr a ha).symm.trans (hpointer r' hr' a (heq ▸ ha))
  exact hdis.base_ne hbase

end Exact

-- ================================================================ whole runs

/-- The keys are right after every run. -/
theorem keyed_run {env : Env} {live live' : List LiveRange} {es : List ShadowEntry}
    (hrun : AllocatorRun live es live') :
    ∀ {rt : Runtime}, Keyed rt live → Keyed (processEntries env rt es) live' := by
  induction hrun with
  | nil live => intro rt hk; exact hk
  | add r hop hptr hsize horigin hdisj _ ih =>
      intro rt hk
      have hadd := processAddAlloc_spec env hk.inv ‹ShadowEntry›
      apply ih
      rw [processEntry_allocAdd rt hop]
      exact hk.add hadd hptr horigin hdisj
  | free r hmem hop hptr _ ih =>
      intro rt hk
      exact ih (freeEntry_frame env hk hmem hop hptr).1
  | other hadd hfree _ ih =>
      intro rt hk
      exact ih (hk.of_sameTable (sameTable_processEntry env rt hadd hfree)
        (processEntry_spec env _ hk.inv).inv)

/-- The shapes are right as long as no two live ranges share an
origin. -/
theorem shaped_run {env : Env} {live live' : List LiveRange} {es : List ShadowEntry}
    (hrun : AllocatorRun live es live') :
    ∀ {rt : Runtime}, Keyed rt live → Shaped rt live →
      (∀ pre mid, pre <+: es → AllocatorRun live pre mid → DistinctOrigins mid) →
      Shaped (processEntries env rt es) live' := by
  induction hrun with
  | nil live => intro rt _ hs _; exact hs
  | @add live live' e es r hop hptr hsize horigin hdisj _ ih =>
      intro rt hk hs hdist
      have hadd := processAddAlloc_spec env hk.inv e
      have hone : DistinctOrigins (r :: live) := hdist [e] _
        (List.prefix_cons_inj e |>.mpr (List.nil_prefix))
        (.add r hop hptr hsize horigin hdisj (.nil _))
      show Shaped (processEntries env (processEntry env rt e) es) live'
      rw [processEntry_allocAdd rt hop]
      refine ih (hk.add hadd hptr horigin hdisj)
        (Shaped.add hk hs hadd hptr hsize horigin hone) ?_
      intro pre mid hpre hmid
      exact hdist (e :: pre) mid ((List.prefix_cons_inj e).mpr hpre)
        (.add r hop hptr hsize horigin hdisj hmid)
  | @free live live' e es r hmem hop hptr _ ih =>
      intro rt hk hs hdist
      obtain ⟨hk', horigins, hshape⟩ := freeEntry_frame env hk hmem hop hptr
      refine ih hk' ?_ ?_
      · intro r' hr' a ha
        rw [horigins] at ha
        obtain ⟨h₁, h₂⟩ := hs r' (List.mem_filter.mp hr').1 a ha
        exact ⟨(hshape a).1.trans h₁, (hshape a).2.trans h₂⟩
      · intro pre mid hpre hmid
        exact hdist (e :: pre) mid ((List.prefix_cons_inj e).mpr hpre)
          (.free r hmem hop hptr hmid)
  | @other live live' e es hadd hfree _ ih =>
      intro rt hk hs hdist
      have hsame := sameTable_processEntry env rt hadd hfree
      refine ih (hk.of_sameTable hsame (processEntry_spec env _ hk.inv).inv)
        (hs.of_sameTable hsame) ?_
      intro pre mid hpre hmid
      exact hdist (e :: pre) mid ((List.prefix_cons_inj e).mpr hpre)
        (.other hadd hfree hmid)

/-- Origins keep their objects along a run. -/
theorem origin_mono_run (env : Env) (es : List ShadowEntry) :
    ∀ {rt : Runtime}, TableInv rt → ∀ {o : UInt64} {a : AllocId},
      rt.originToAllocMap o = some a →
      (processEntries env rt es).originToAllocMap o = some a := by
  induction es with
  | nil => intro rt _ o a h; exact h
  | cons e es ih =>
      intro rt hinv o a h
      apply ih (processEntry_spec env e hinv).inv
      by_cases hadd : e.operation = .allocAdd
      · rw [processEntry_allocAdd rt hadd]
        exact (processAddAlloc_spec env hinv e).origin_mono h
      · by_cases hfree : e.operation = .allocFree
        · simp only [processEntry, hfree, processFreeAllocation]
          cases rt.find e.ptr with
          | none => exact h
          | some b => exact h
        · rw [(sameTable_processEntry env rt hadd hfree).origins]
          exact h

/-- Without frees, origins that are distinct in the end were distinct
all along. -/
theorem AllocatorRun.distinct_prefix {es : List ShadowEntry} {live : List LiveRange}
    (hrun : AllocatorRun [] es live) (hno : ∀ e ∈ es, e.operation ≠ .allocFree)
    (hdist : DistinctOrigins live) (pre : List ShadowEntry) (mid : List LiveRange)
    (hpre : pre <+: es) (hmid : AllocatorRun [] pre mid) : DistinctOrigins mid := by
  obtain ⟨post, rfl⟩ := hpre
  obtain ⟨mid', h₁, h₂⟩ := hrun.split
  rw [hmid.det h₁]
  exact hdist.of_suffix
    (h₂.suffix fun e he => hno e (List.mem_append_right _ he))

/-- After a run of distinct origins without frees, keys and shapes are
right. -/
theorem table_run {env : Env} {es : List ShadowEntry} {live : List LiveRange}
    (hrun : AllocatorRun [] es live) (hno : ∀ e ∈ es, e.operation ≠ .allocFree)
    (hdist : DistinctOrigins live) :
    Keyed (processEntries env texasInit es) live
      ∧ Shaped (processEntries env texasInit es) live :=
  ⟨keyed_run hrun keyed_init, shaped_run hrun keyed_init
    (fun _ hr => absurd hr List.not_mem_nil) (hrun.distinct_prefix hno hdist)⟩

/-- Lookups are exact after every prefix of a run of a real allocator
exactly when no two ranges live at the same time have the same
origin. -/
theorem lookupExact_iff_distinctOrigins (env : Env) (es : List ShadowEntry) :
    (∀ pre live, pre <+: es → AllocatorRun [] pre live →
        LookupExact (processEntries env texasInit pre) live)
      ↔ ∀ pre live, pre <+: es → AllocatorRun [] pre live → DistinctOrigins live := by
  constructor
  · intro hex pre live hpre hrun
    exact (keyed_run hrun keyed_init).distinct_of_exact (hex pre live hpre hrun)
  · intro hdist pre live hpre hrun
    refine (keyed_run hrun keyed_init).lookupExact
      (shaped_run hrun keyed_init (fun r hr => absurd hr List.not_mem_nil) ?_)
    intro pre' mid hpre' hmid
    exact hdist pre' mid (hpre'.trans hpre) hmid

/-- Two live blocks of one allocation site: the lookup of the first
block's base finds the shared object, which points at the second. -/
theorem lookup_shared_origin :
    let first : LiveRange := ⟨⟨100, 8, by decide, by decide⟩, 1⟩
    let second : LiveRange := ⟨⟨200, 8, by decide, by decide⟩, 1⟩
    let es := [(SlotWrite.allocAdd 100 8 1 none).entry,
      (SlotWrite.allocAdd 200 8 1 none).entry]
    AllocatorRun [] es [second, first]
      ∧ ¬ LookupExact (processEntries (Env.ofTree .flat) texasInit es) [second, first] := by
  intro first second es
  constructor
  · refine .add first rfl rfl rfl rfl (fun r hr => absurd hr List.not_mem_nil)
      (.add second rfl rfl rfl rfl ?_ (.nil _))
    intro r hr
    rw [List.mem_singleton.mp hr]
    intro p hp hp'
    have h₁ := (Range.contains_iff.mp hp).1
    have h₂ := (Range.contains_iff.mp hp').2
    have h₃ : second.base.toNat = 200 := rfl
    have h₄ : first.base.toNat + first.length.toNat = 108 := rfl
    omega
  · intro hex
    have hoff := ((hex 100 (by decide)).2 1 (by decide) first (by simp) (by decide)).1
    revert hoff
    decide

end Carmot.Texas
