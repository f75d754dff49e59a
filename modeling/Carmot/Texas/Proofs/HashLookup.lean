/-
The hashed fast path of the allocation table.

`Built` is every way to make a table: a constructor with a set of
power-of-two lengths, insertions of blocks apart from the live ones,
deletions of live bases, and merges with a table made the same way. The
objects are listed beside it, and `linearSearch` over that list is what
a lookup should answer. `TableLive` is the invariant: each live object
is in exactly one half of the table, under its own pointer, and the
hashed ones have a length some mask was made for.

A probe returns whatever is stored at the masked address, without the
length check of the ordered search. It is right exactly when hashed
blocks are aligned to their length and no larger mask divides their
base. The ordered half is right exactly when a block of two bytes or
more has a key above it, since a search that reaches `end()` gives up,
and an empty block is never its own answer. `HashSafe` is these four
together. Masks are kept in an unordered set, so the property
quantifies over the orders iteration may take.
-/
import Mathlib.Data.List.Perm.Basic
import Carmot.Texas.Proofs.PointLookup

namespace Carmot.Texas

open Carmot.Lib

-- ================================================================ the masks

/-- A length a mask is made for. -/
def PowerOfTwo (n : UInt64) : Prop := ∃ j, j < 64 ∧ n.toNat = 2 ^ j

/-- A mask clears the low bits: the masked address is the multiple of
the length at or below it. -/
theorem toNat_maskKey {n : UInt64} {j : Nat} (hj : j < 64) (hn : n.toNat = 2 ^ j) (p : Addr) :
    (maskKey p (maskForLength n)).toNat = p.toNat / 2 ^ j * 2 ^ j := by
  have hlog : n.log2.toNat = j := by
    show n.toNat.log2 = j
    rw [hn, Nat.log2_two_pow]
  have hmask : (maskForLength n).toNat = (2 ^ 64 - 1) >>> j <<< j % 2 ^ 64 := by
    unfold maskForLength
    rw [UInt64.toNat_shiftLeft, UInt64.toNat_shiftRight, hlog, Nat.mod_eq_of_lt hj]
    rfl
  have hhigh : ∀ i, 64 ≤ i → p.toNat.testBit i = false := fun i hi =>
    Nat.testBit_lt_two_pow (Nat.lt_of_lt_of_le p.toNat_lt (Nat.pow_le_pow_right (by decide) hi))
  unfold maskKey
  rw [UInt64.toNat_and, hmask, ← Nat.shiftRight_eq_div_pow, ← Nat.shiftLeft_eq]
  apply Nat.eq_of_testBit_eq
  intro i
  simp only [Nat.testBit_and, Nat.testBit_mod_two_pow, Nat.testBit_shiftLeft,
    Nat.testBit_shiftRight, Nat.testBit_two_pow_sub_one]
  by_cases hji : j ≤ i
  · have hi : j + (i - j) = i := by omega
    by_cases h64 : 64 ≤ i
    · simp [hhigh i h64, hi]
    · simp [hji, hi, Nat.lt_of_not_le h64]
  · simp [hji]

/-- What an address is masked to: a multiple of the length within one
length below. -/
theorem maskKey_eq_iff {n : UInt64} (hn : PowerOfTwo n) {p k : Addr} :
    maskKey p (maskForLength n) = k ↔
      n.toNat ∣ k.toNat ∧ k.toNat ≤ p.toNat ∧ p.toNat < k.toNat + n.toNat := by
  obtain ⟨j, hj, hn⟩ := hn
  have hpos : 0 < 2 ^ j := Nat.two_pow_pos j
  rw [← UInt64.toNat_inj, toNat_maskKey hj hn, hn]
  have hdiv := Nat.div_add_mod p.toNat (2 ^ j)
  have hmod := Nat.mod_lt p.toNat hpos
  rw [Nat.mul_comm] at hdiv
  constructor
  · intro h
    rw [← h]
    exact ⟨Nat.dvd_mul_left _ _, by omega, by omega⟩
  · intro h
    obtain ⟨⟨q, hq⟩, hle, hlt⟩ := h
    rw [Nat.mul_comm] at hq
    rw [hq] at hle hlt ⊢
    have hquot : p.toNat / 2 ^ j = q := by
      rw [Nat.div_eq_iff hpos]
      omega
    rw [hquot]

/-- A multiple of the length leaves room for the length. -/
theorem PowerOfTwo.fits {n : UInt64} (hn : PowerOfTwo n) {k : Addr}
    (hdvd : n.toNat ∣ k.toNat) : k.toNat + n.toNat ≤ 2 ^ 64 := by
  obtain ⟨j, hj, hn⟩ := hn
  rw [hn] at hdvd ⊢
  obtain ⟨q, hq⟩ := hdvd
  have hsplit : 2 ^ 64 = 2 ^ j * 2 ^ (64 - j) := by
    rw [← Nat.pow_add, Nat.add_sub_cancel' (Nat.le_of_lt hj)]
  have hlt := k.toNat_lt
  rw [hq, hsplit] at hlt
  have hq' : q < 2 ^ (64 - j) := Nat.lt_of_mul_lt_mul_left hlt
  calc k.toNat + 2 ^ j = 2 ^ j * (q + 1) := by rw [hq, Nat.mul_succ]
    _ ≤ 2 ^ j * 2 ^ (64 - j) := Nat.mul_le_mul_left _ hq'
    _ = 2 ^ 64 := hsplit.symm

-- =============================================================== the blocks

section Blocks

variable (allocs : AllocId → Allocation)

/-- The address is in the object's range. -/
def InBlock (a : AllocId) (p : Addr) : Prop :=
  (allocs a).pointer.toNat ≤ p.toNat
    ∧ p.toNat < (allocs a).pointer.toNat + (allocs a).length.toNat

instance (a : AllocId) (p : Addr) : Decidable (InBlock allocs a p) :=
  inferInstanceAs (Decidable (_ ∧ _))

/-- Two objects with different bases and no address in common. -/
def BlocksApart (a b : AllocId) : Prop :=
  (allocs a).pointer ≠ (allocs b).pointer ∧ ∀ p, InBlock allocs a p → ¬ InBlock allocs b p

/-- The plain search: the first live object whose range has the
address. -/
def linearSearch (live : List AllocId) (p : Addr) : Option AllocId :=
  live.find? fun a => decide (InBlock allocs a p)

/-- The tables that can be made, with the lengths given to any
constructor on the way and the objects that are live. -/
inductive Built : AllocationTable → List UInt64 → List AllocId → Prop
  | new (lens : List UInt64) (hpow : ∀ n ∈ lens, PowerOfTwo n) :
      Built (AllocationTable.ofMasks lens) lens []
  | insert {t : AllocationTable} {lens : List UInt64} {live : List AllocId} (a : AllocId)
      (hfits : (allocs a).pointer.toNat + (allocs a).length.toNat ≤ 2 ^ 64)
      (hapart : ∀ b ∈ live, BlocksApart allocs a b) (rest : Built t lens live) :
      Built (insertAllocation allocs t (allocs a).pointer a) lens (a :: live)
  | delete {t : AllocationTable} {lens : List UInt64} {live : List AllocId} (a : AllocId)
      (hmem : a ∈ live) (rest : Built t lens live) :
      Built (deleteAllocation t (allocs a).pointer) lens
        (live.filter fun b => decide (b ≠ a))
  | merge {t t' : AllocationTable} {lens lens' : List UInt64} {live live' : List AllocId}
      (overwrite : Bool) (hapart : ∀ a ∈ live, ∀ b ∈ live', BlocksApart allocs a b)
      (rest : Built t lens live) (rest' : Built t' lens' live') :
      Built (mergeTable t t' overwrite) (lens ++ lens') (live ++ live')

/-- What holds of every table that can be made. -/
structure TableLive (t : AllocationTable) (lens : List UInt64) (live : List AllocId) :
    Prop where
  pow : ∀ n ∈ lens, PowerOfTwo n
  masks : ∀ m, m ∈ t.masks ↔ ∃ n ∈ lens, maskForLength n = m
  lengths : ∀ n ∈ t.maskLengths, n ∈ lens
  fits : ∀ a ∈ live, (allocs a).pointer.toNat + (allocs a).length.toNat ≤ 2 ^ 64
  apart : ∀ a ∈ live, ∀ b ∈ live, a ≠ b → BlocksApart allocs a b
  hashed : ∀ k a, t.hashAllocationTable.find? k = some a →
    a ∈ live ∧ (allocs a).pointer = k ∧ (allocs a).length ∈ lens
  sorted : ∀ k a, t.sortedAllocationTable.find? k = some a →
    a ∈ live ∧ (allocs a).pointer = k ∧ t.hashAllocationTable.find? k = none
  stored : ∀ a ∈ live, t.hashAllocationTable.find? (allocs a).pointer = some a
    ∨ t.sortedAllocationTable.find? (allocs a).pointer = some a

/-- Where the lookup is right: hashed blocks are aligned to their
length and to no larger mask, an ordered block of two bytes or more has
a key above it, and an empty one is hidden under a hashed block. -/
structure HashSafe (t : AllocationTable) (lens : List UInt64) : Prop where
  aligned : ∀ k a, t.hashAllocationTable.find? k = some a →
    (allocs a).length.toNat ∣ k.toNat
  largest : ∀ k a, t.hashAllocationTable.find? k = some a →
    ∀ n ∈ lens, n.toNat ∣ k.toNat → n.toNat ≤ (allocs a).length.toNat
  above : ∀ k a, t.sortedAllocationTable.find? k = some a → 1 < (allocs a).length.toNat →
    ∃ j b, t.sortedAllocationTable.find? j = some b ∧ k < j
  hidden : ∀ k a, t.sortedAllocationTable.find? k = some a → (allocs a).length = 0 →
    ∃ j b, t.hashAllocationTable.find? j = some b ∧ InBlock allocs b k

end Blocks

-- ============================================================ the invariant

section Invariant

variable {allocs : AllocId → Allocation} {t t' : AllocationTable} {lens lens' : List UInt64}
  {live live' : List AllocId}

theorem BlocksApart.symm {a b : AllocId} (h : BlocksApart allocs a b) :
    BlocksApart allocs b a :=
  ⟨h.1.symm, fun p hb ha => h.2 p ha hb⟩

/-- A constructor's table has the masks of its lengths and no entry. -/
theorem ofMasks_spec (lens : List UInt64) :
    (∀ m, m ∈ (AllocationTable.ofMasks lens).masks ↔ ∃ n ∈ lens, maskForLength n = m)
      ∧ (∀ n ∈ (AllocationTable.ofMasks lens).maskLengths, n ∈ lens)
      ∧ (AllocationTable.ofMasks lens).hashAllocationTable = SortedMap.empty
      ∧ (AllocationTable.ofMasks lens).sortedAllocationTable = SortedMap.empty := by
  unfold AllocationTable.ofMasks
  -- the lengths are added one by one, so the induction is from the right
  induction lens using List.reverseRecOn with
  | nil => exact ⟨by simp [AllocationTable.new], by simp [AllocationTable.new], rfl, rfl⟩
  | append_singleton lens n ih =>
      obtain ⟨hm, hl, hh, hs⟩ := ih
      rw [List.foldl_append, List.foldl_cons, List.foldl_nil]
      refine ⟨fun m => ?_, fun n' hn' => ?_, hh, hs⟩
      · simp only [addMaskForLength, List.mem_insert_iff, hm, List.mem_append,
          List.mem_singleton]
        constructor
        · rintro (rfl | ⟨n', hn', rfl⟩)
          · exact ⟨n, Or.inr rfl, rfl⟩
          · exact ⟨n', Or.inl hn', rfl⟩
        · rintro ⟨n', hn' | rfl, rfl⟩
          · exact Or.inr ⟨n', hn', rfl⟩
          · exact Or.inl rfl
      · simp only [addMaskForLength, List.mem_insert_iff] at hn'
        rcases hn' with rfl | hn'
        · exact List.mem_append_right _ (List.mem_singleton.mpr rfl)
        · exact List.mem_append_left _ (hl n' hn')

theorem TableLive.new (hpow : ∀ n ∈ lens, PowerOfTwo n) :
    TableLive allocs (AllocationTable.ofMasks lens) lens [] := by
  obtain ⟨hm, hl, hh, hs⟩ := ofMasks_spec lens
  refine ⟨hpow, hm, hl, by simp, by simp, fun k a h => ?_, fun k a h => ?_, by simp⟩
  · rw [hh] at h
    cases h
  · rw [hs] at h
    cases h

/-- A key of the table is the base of a live object. -/
theorem TableLive.base_of_key (h : TableLive allocs t lens live) {k : Addr} {a : AllocId}
    (hk : t.hashAllocationTable.find? k = some a ∨ t.sortedAllocationTable.find? k = some a) :
    a ∈ live ∧ (allocs a).pointer = k := by
  rcases hk with hk | hk
  · exact ⟨(h.hashed k a hk).1, (h.hashed k a hk).2.1⟩
  · exact ⟨(h.sorted k a hk).1, (h.sorted k a hk).2.1⟩

/-- A base apart from every live one is no key. -/
theorem TableLive.absent (h : TableLive allocs t lens live) {a : AllocId}
    (hapart : ∀ b ∈ live, BlocksApart allocs a b) :
    t.hashAllocationTable.find? (allocs a).pointer = none
      ∧ t.sortedAllocationTable.find? (allocs a).pointer = none := by
  constructor
  · cases hf : t.hashAllocationTable.find? (allocs a).pointer with
    | none => rfl
    | some b =>
        obtain ⟨hb, hbase⟩ := h.base_of_key (Or.inl hf)
        exact absurd hbase.symm (hapart b hb).1
  · cases hf : t.sortedAllocationTable.find? (allocs a).pointer with
    | none => rfl
    | some b =>
        obtain ⟨hb, hbase⟩ := h.base_of_key (Or.inr hf)
        exact absurd hbase.symm (hapart b hb).1

theorem TableLive.insert (h : TableLive allocs t lens live) {a : AllocId}
    (hfits : (allocs a).pointer.toNat + (allocs a).length.toNat ≤ 2 ^ 64)
    (hapart : ∀ b ∈ live, BlocksApart allocs a b) :
    TableLive allocs (insertAllocation allocs t (allocs a).pointer a) lens (a :: live) := by
  obtain ⟨hnone, hnone'⟩ := h.absent hapart
  have hlive : ∀ b ∈ a :: live, ∀ c ∈ a :: live, b ≠ c → BlocksApart allocs b c := by
    intro b hb c hc hne
    rcases List.mem_cons.mp hb with rfl | hb'
    · rcases List.mem_cons.mp hc with rfl | hc'
      · exact absurd rfl hne
      · exact hapart c hc'
    · rcases List.mem_cons.mp hc with rfl | hc'
      · exact (hapart b hb').symm
      · exact h.apart b hb' c hc' hne
  have hfits' : ∀ b ∈ a :: live,
      (allocs b).pointer.toNat + (allocs b).length.toNat ≤ 2 ^ 64 := by
    intro b hb
    rcases List.mem_cons.mp hb with rfl | hb
    · exact hfits
    · exact h.fits b hb
  -- the keys other than the new one keep their half
  unfold insertAllocation
  by_cases hlen : (allocs a).length ∈ t.maskLengths
  · rw [if_pos hlen]
    refine ⟨h.pow, h.masks, h.lengths, hfits', hlive, fun k b hf => ?_, fun k b hf => ?_,
      fun b hb => ?_⟩
    · rw [SortedMap.find?_insert, hnone] at hf
      by_cases hk : k = (allocs a).pointer
      · rw [if_pos hk] at hf
        cases hf
        exact ⟨List.mem_cons_self .., hk.symm, h.lengths _ hlen⟩
      · rw [if_neg hk] at hf
        obtain ⟨hb, hbase, hn⟩ := h.hashed k b hf
        exact ⟨List.mem_cons_of_mem _ hb, hbase, hn⟩
    · obtain ⟨hb, hbase, hn⟩ := h.sorted k b hf
      refine ⟨List.mem_cons_of_mem _ hb, hbase, ?_⟩
      have hk : k ≠ (allocs a).pointer := by
        rintro rfl
        rw [hnone'] at hf
        cases hf
      rw [SortedMap.find?_insert, if_neg hk]
      exact hn
    · rw [SortedMap.find?_insert, hnone]
      rcases List.mem_cons.mp hb with rfl | hb
      · exact Or.inl (if_pos rfl)
      · rw [if_neg (hapart b hb).1.symm]
        exact h.stored b hb
  · rw [if_neg hlen]
    refine ⟨h.pow, h.masks, h.lengths, hfits', hlive, fun k b hf => ?_, fun k b hf => ?_,
      fun b hb => ?_⟩
    · obtain ⟨hb, hbase, hn⟩ := h.hashed k b hf
      exact ⟨List.mem_cons_of_mem _ hb, hbase, hn⟩
    · rw [SortedMap.find?_insert, hnone'] at hf
      by_cases hk : k = (allocs a).pointer
      · rw [if_pos hk] at hf
        cases hf
        exact ⟨List.mem_cons_self .., hk.symm, by rw [hk]; exact hnone⟩
      · rw [if_neg hk] at hf
        obtain ⟨hb, hbase, hn⟩ := h.sorted k b hf
        exact ⟨List.mem_cons_of_mem _ hb, hbase, hn⟩
    · rw [SortedMap.find?_insert, hnone']
      rcases List.mem_cons.mp hb with rfl | hb
      · exact Or.inr (if_pos rfl)
      · rw [if_neg (hapart b hb).1.symm]
        exact h.stored b hb

/-- One live object per base. -/
theorem TableLive.eq_of_base (h : TableLive allocs t lens live) {a b : AllocId}
    (ha : a ∈ live) (hb : b ∈ live) (hbase : (allocs a).pointer = (allocs b).pointer) :
    a = b := by
  by_contra hne
  exact (h.apart a ha b hb hne).1 hbase

theorem TableLive.delete (h : TableLive allocs t lens live) {a : AllocId} (ha : a ∈ live) :
    TableLive allocs (deleteAllocation t (allocs a).pointer) lens
      (live.filter fun b => decide (b ≠ a)) := by
  have hmem : ∀ b, b ∈ live.filter (fun b => decide (b ≠ a)) ↔ b ∈ live ∧ b ≠ a := by
    intro b
    simp
  have hfits' : ∀ b ∈ live.filter (fun b => decide (b ≠ a)),
      (allocs b).pointer.toNat + (allocs b).length.toNat ≤ 2 ^ 64 :=
    fun b hb => h.fits b ((hmem b).mp hb).1
  have hlive : ∀ b ∈ live.filter (fun b => decide (b ≠ a)),
      ∀ c ∈ live.filter (fun b => decide (b ≠ a)), b ≠ c → BlocksApart allocs b c :=
    fun b hb c hc hne => h.apart b ((hmem b).mp hb).1 c ((hmem c).mp hc).1 hne
  -- an object under another key is not the deleted one, and stays
  have hkept : ∀ {k : Addr} {b : AllocId}, k ≠ (allocs a).pointer → b ∈ live →
      (allocs b).pointer = k → b ∈ live.filter fun b => decide (b ≠ a) := by
    intro k b hk hb hbase
    refine (hmem b).mpr ⟨hb, ?_⟩
    rintro rfl
    exact hk hbase.symm
  have hother : ∀ {b : AllocId}, b ∈ live → b ≠ a → (allocs b).pointer ≠ (allocs a).pointer :=
    fun hb hne hbase => hne (h.eq_of_base hb ha hbase)
  unfold deleteAllocation
  cases hf : t.hashAllocationTable.find? (allocs a).pointer with
  | some c =>
      refine ⟨h.pow, h.masks, h.lengths, hfits', hlive, fun k b hk => ?_, fun k b hk => ?_,
        fun b hb => ?_⟩
      · rw [SortedMap.find?_erase] at hk
        by_cases hbase : k = (allocs a).pointer
        · rw [if_pos hbase] at hk
          cases hk
        · rw [if_neg hbase] at hk
          obtain ⟨hb, hbase', hn⟩ := h.hashed k b hk
          exact ⟨hkept hbase hb hbase', hbase', hn⟩
      · obtain ⟨hb, hbase', hn⟩ := h.sorted k b hk
        have hbase : k ≠ (allocs a).pointer := by
          rintro rfl
          rw [hf] at hn
          cases hn
        refine ⟨hkept hbase hb hbase', hbase', ?_⟩
        rw [SortedMap.find?_erase, if_neg hbase]
        exact hn
      · obtain ⟨hb, hne⟩ := (hmem b).mp hb
        rw [SortedMap.find?_erase, if_neg (hother hb hne)]
        exact h.stored b hb
  | none =>
      refine ⟨h.pow, h.masks, h.lengths, hfits', hlive, fun k b hk => ?_, fun k b hk => ?_,
        fun b hb => ?_⟩
      · obtain ⟨hb, hbase', hn⟩ := h.hashed k b hk
        have hbase : k ≠ (allocs a).pointer := by
          rintro rfl
          rw [hf] at hk
          cases hk
        exact ⟨hkept hbase hb hbase', hbase', hn⟩
      · rw [SortedMap.find?_erase] at hk
        by_cases hbase : k = (allocs a).pointer
        · rw [if_pos hbase] at hk
          cases hk
        · rw [if_neg hbase] at hk
          obtain ⟨hb, hbase', hn⟩ := h.sorted k b hk
          exact ⟨hkept hbase hb hbase', hbase', hn⟩
      · obtain ⟨hb, hne⟩ := (hmem b).mp hb
        rw [SortedMap.find?_erase, if_neg (hother hb hne)]
        exact h.stored b hb

/-- Tables of blocks that are all apart share no key. -/
theorem TableLive.keys_apart (h : TableLive allocs t lens live)
    (h' : TableLive allocs t' lens' live')
    (hapart : ∀ a ∈ live, ∀ b ∈ live', BlocksApart allocs a b) {k : Addr} {a b : AllocId}
    (hk : t.hashAllocationTable.find? k = some a ∨ t.sortedAllocationTable.find? k = some a)
    (hk' : t'.hashAllocationTable.find? k = some b ∨ t'.sortedAllocationTable.find? k = some b) :
    False := by
  obtain ⟨ha, hbase⟩ := h.base_of_key hk
  obtain ⟨hb, hbase'⟩ := h'.base_of_key hk'
  exact (hapart a ha b hb).1 (hbase.trans hbase'.symm)

theorem mem_foldl_insert {ms : List UInt64} {m : UInt64} :
    ∀ {acc : List UInt64},
      m ∈ ms.foldl (fun ms mask => ms.insert mask) acc ↔ m ∈ acc ∨ m ∈ ms := by
  induction ms with
  | nil => intro acc; simp
  | cons a ms ih =>
      intro acc
      rw [List.foldl_cons, ih, List.mem_insert_iff, List.mem_cons]
      constructor
      · rintro ((h | h) | h)
        · exact Or.inr (Or.inl h)
        · exact Or.inl h
        · exact Or.inr (Or.inr h)
      · rintro (h | h | h)
        · exact Or.inl (Or.inr h)
        · exact Or.inl (Or.inl h)
        · exact Or.inr h

/-- The halves of a merge of tables whose blocks are all apart. -/
theorem TableLive.find_merge (h : TableLive allocs t lens live)
    (h' : TableLive allocs t' lens' live') (overwrite : Bool)
    (hapart : ∀ a ∈ live, ∀ b ∈ live', BlocksApart allocs a b) (k : Addr) (a : AllocId) :
    ((mergeTable t t' overwrite).hashAllocationTable.find? k = some a ↔
        t.hashAllocationTable.find? k = some a ∨ t'.hashAllocationTable.find? k = some a)
      ∧ ((mergeTable t t' overwrite).sortedAllocationTable.find? k = some a ↔
        t.sortedAllocationTable.find? k = some a ∨ t'.sortedAllocationTable.find? k = some a) := by
  constructor
  · apply SortedMap.find?_merge_eq_some
    cases hk : t.hashAllocationTable.find? k with
    | none => exact Or.inl rfl
    | some a =>
        cases hk' : t'.hashAllocationTable.find? k with
        | none => exact Or.inr rfl
        | some b => exact absurd (h.keys_apart h' hapart (Or.inl hk) (Or.inl hk')) id
  · apply SortedMap.find?_merge_eq_some
    cases hk : t.sortedAllocationTable.find? k with
    | none => exact Or.inl rfl
    | some a =>
        cases hk' : t'.sortedAllocationTable.find? k with
        | none => exact Or.inr rfl
        | some b => exact absurd (h.keys_apart h' hapart (Or.inr hk) (Or.inr hk')) id

/-- A key of an ordered half is in neither hash half. -/
theorem TableLive.not_hashed_merge (h : TableLive allocs t lens live)
    (h' : TableLive allocs t' lens' live') (overwrite : Bool)
    (hapart : ∀ a ∈ live, ∀ b ∈ live', BlocksApart allocs a b) {k : Addr} {a : AllocId}
    (hk : t.sortedAllocationTable.find? k = some a
      ∨ t'.sortedAllocationTable.find? k = some a) :
    (mergeTable t t' overwrite).hashAllocationTable.find? k = none := by
  cases hf : (mergeTable t t' overwrite).hashAllocationTable.find? k with
  | none => rfl
  | some b =>
      rcases (h.find_merge h' overwrite hapart k b).1.mp hf with hf | hf
      · rcases hk with hk | hk
        · rw [(h.sorted k a hk).2.2] at hf
          cases hf
        · exact absurd (h.keys_apart h' hapart (Or.inl hf) (Or.inr hk)) id
      · rcases hk with hk | hk
        · exact absurd (h.keys_apart h' hapart (Or.inr hk) (Or.inl hf)) id
        · rw [(h'.sorted k a hk).2.2] at hf
          cases hf

theorem TableLive.merge (h : TableLive allocs t lens live) (h' : TableLive allocs t' lens' live')
    (overwrite : Bool) (hapart : ∀ a ∈ live, ∀ b ∈ live', BlocksApart allocs a b) :
    TableLive allocs (mergeTable t t' overwrite) (lens ++ lens') (live ++ live') := by
  have hhash := fun k a => (h.find_merge h' overwrite hapart k a).1
  have hsorted := fun k a => (h.find_merge h' overwrite hapart k a).2
  refine ⟨fun n hn => ?_, fun m => ?_, fun n hn => ?_, fun a ha => ?_, fun a ha b hb hne => ?_,
    fun k a hk => ?_, fun k a hk => ?_, fun a ha => ?_⟩
  · rcases List.mem_append.mp hn with hn | hn
    · exact h.pow n hn
    · exact h'.pow n hn
  · show m ∈ t'.masks.foldl _ t.masks ↔ _
    simp only [mem_foldl_insert, h.masks, h'.masks, List.mem_append, or_and_right, exists_or]
  · exact List.mem_append_left _ (h.lengths n hn)
  · rcases List.mem_append.mp ha with ha | ha
    · exact h.fits a ha
    · exact h'.fits a ha
  · rcases List.mem_append.mp ha with ha | ha
    · rcases List.mem_append.mp hb with hb | hb
      · exact h.apart a ha b hb hne
      · exact hapart a ha b hb
    · rcases List.mem_append.mp hb with hb | hb
      · exact (hapart b hb a ha).symm
      · exact h'.apart a ha b hb hne
  · rcases (hhash k a).mp hk with hk | hk
    · obtain ⟨ha, hbase, hn⟩ := h.hashed k a hk
      exact ⟨List.mem_append_left _ ha, hbase, List.mem_append_left _ hn⟩
    · obtain ⟨ha, hbase, hn⟩ := h'.hashed k a hk
      exact ⟨List.mem_append_right _ ha, hbase, List.mem_append_right _ hn⟩
  · have hk' := (hsorted k a).mp hk
    refine ⟨?_, ?_, h.not_hashed_merge h' overwrite hapart hk'⟩
    · rcases hk' with hk' | hk'
      · exact List.mem_append_left _ (h.sorted k a hk').1
      · exact List.mem_append_right _ (h'.sorted k a hk').1
    · rcases hk' with hk' | hk'
      · exact (h.sorted k a hk').2.1
      · exact (h'.sorted k a hk').2.1
  · rw [hhash, hsorted]
    rcases List.mem_append.mp ha with ha | ha
    · rcases h.stored a ha with hs | hs
      · exact Or.inl (Or.inl hs)
      · exact Or.inr (Or.inl hs)
    · rcases h'.stored a ha with hs | hs
      · exact Or.inl (Or.inr hs)
      · exact Or.inr (Or.inr hs)

/-- The invariant holds of every table that can be made. -/
theorem Built.tableLive (h : Built allocs t lens live) : TableLive allocs t lens live := by
  induction h with
  | new lens hpow => exact TableLive.new hpow
  | insert a hfits hapart _ ih => exact ih.insert hfits hapart
  | delete a hmem _ ih => exact ih.delete hmem
  | merge overwrite hapart _ _ ih ih' => exact ih.merge ih' overwrite hapart

end Invariant

-- ================================================================ the probe

section Probe

variable {allocs : AllocId → Allocation} {t : AllocationTable} {lens : List UInt64}
  {live : List AllocId} {ms : List UInt64} {p : Addr}

/-- One live object per address. -/
theorem TableLive.eq_of_inBlock (h : TableLive allocs t lens live) {a b : AllocId}
    (ha : a ∈ live) (hb : b ∈ live) (hpa : InBlock allocs a p) (hpb : InBlock allocs b p) :
    a = b := by
  by_contra hne
  exact (h.apart a ha b hb hne).2 p hpa hpb

/-- The plain search answers with the object that has the address. -/
theorem TableLive.linearSearch_eq_some (h : TableLive allocs t lens live) {a : AllocId} :
    linearSearch allocs live p = some a ↔ a ∈ live ∧ InBlock allocs a p := by
  unfold linearSearch
  constructor
  · intro hf
    exact ⟨List.mem_of_find?_eq_some hf, by simpa using List.find?_some hf⟩
  · rintro ⟨ha, hpa⟩
    cases hf : live.find? fun a => decide (InBlock allocs a p) with
    | none =>
        have := List.find?_eq_none.mp hf a ha
        simp [hpa] at this
    | some b =>
        have hpb : InBlock allocs b p := by simpa using List.find?_some hf
        rw [h.eq_of_inBlock ha (List.mem_of_find?_eq_some hf) hpa hpb]

/-- The answer of the masked probes. -/
def probe (t : AllocationTable) (ms : List UInt64) (p : Addr) : Option AllocId :=
  ms.findSome? fun mask => t.hashAllocationTable.find? (maskKey p mask)

/-- A probe that answers does so for some length: its multiple at or
below the address is the object's base. -/
theorem TableLive.probe_some (h : TableLive allocs t lens live) (hms : ms.Perm t.masks)
    {a : AllocId} (hp : probe t ms p = some a) :
    t.hashAllocationTable.find? (allocs a).pointer = some a
      ∧ ∃ n ∈ lens, n.toNat ∣ (allocs a).pointer.toNat
        ∧ (allocs a).pointer.toNat ≤ p.toNat
        ∧ p.toNat < (allocs a).pointer.toNat + n.toNat := by
  obtain ⟨mask, hmask, hf⟩ := List.exists_of_findSome?_eq_some hp
  obtain ⟨n, hn, rfl⟩ := (h.masks mask).mp (hms.mem_iff.mp hmask)
  have hbase := (h.hashed _ a hf).2.1
  refine ⟨hbase ▸ hf, n, hn, ?_⟩
  exact (maskKey_eq_iff (h.pow n hn)).mp hbase.symm

/-- A length that divides a hashed base answers for every address
within it, whatever comes next in the iteration. -/
theorem TableLive.probe_head (h : TableLive allocs t lens live) {k : Addr} {a : AllocId}
    (hk : t.hashAllocationTable.find? k = some a) {n : UInt64} (hn : n ∈ lens)
    (hdvd : n.toNat ∣ k.toNat) (hle : k.toNat ≤ p.toNat) (hlt : p.toNat < k.toNat + n.toNat)
    (rest : List UInt64) : probe t (maskForLength n :: rest) p = some a := by
  have hkey : maskKey p (maskForLength n) = k :=
    (maskKey_eq_iff (h.pow n hn)).mpr ⟨hdvd, hle, hlt⟩
  unfold probe
  rw [List.findSome?_cons, hkey, hk]

theorem findAllocation_masks (allocs : AllocId → Allocation) (t : AllocationTable)
    (ms : List UInt64) (p : Addr) :
    findAllocation allocs { t with masks := ms } p
      = match probe t ms p with
        | some a => some a
        | none => findSorted allocs t.sortedAllocationTable p := rfl

-- ============================================================= safe tables

/-- In a safe table the probe answers exactly for the hashed blocks. -/
theorem HashSafe.probe_eq_some (hs : HashSafe allocs t lens) (h : TableLive allocs t lens live)
    (hms : ms.Perm t.masks) {a : AllocId} :
    probe t ms p = some a ↔
      t.hashAllocationTable.find? (allocs a).pointer = some a ∧ InBlock allocs a p := by
  have hsound : ∀ {b}, probe t ms p = some b →
      t.hashAllocationTable.find? (allocs b).pointer = some b ∧ InBlock allocs b p := by
    intro b hb
    obtain ⟨hk, n, hn, hdvd, hle, hlt⟩ := h.probe_some hms hb
    have hlen := hs.largest _ b hk n hn hdvd
    exact ⟨hk, hle, by omega⟩
  constructor
  · exact hsound
  · rintro ⟨hk, hpa⟩
    obtain ⟨ha, -, hlen⟩ := h.hashed _ a hk
    cases hf : probe t ms p with
    | some b =>
        obtain ⟨hk', hpb⟩ := hsound hf
        rw [h.eq_of_inBlock ha (h.hashed _ b hk').1 hpa hpb]
    | none =>
        -- the mask of the block's own length leads to its base
        have hmask : maskForLength (allocs a).length ∈ ms :=
          hms.mem_iff.mpr ((h.masks _).mpr ⟨_, hlen, rfl⟩)
        have hnone := List.findSome?_eq_none_iff.mp hf _ hmask
        have hkey : maskKey p (maskForLength (allocs a).length) = (allocs a).pointer :=
          (maskKey_eq_iff (h.pow _ hlen)).mpr ⟨hs.aligned _ a hk, hpa.1, hpa.2⟩
        rw [hkey, hk] at hnone
        cases hnone

/-- In a safe table no other key of the ordered half lies in an ordered
block. -/
theorem HashSafe.no_key_inside (hs : HashSafe allocs t lens) (h : TableLive allocs t lens live)
    {k j : Addr} {a b : AllocId} (hk : t.sortedAllocationTable.find? k = some a)
    (hj : t.sortedAllocationTable.find? j = some b) (hne : k ≠ j) : ¬ InBlock allocs a j := by
  intro hin
  obtain ⟨ha, hbase, hnone⟩ := h.sorted k a hk
  obtain ⟨hb, hbase', -⟩ := h.sorted j b hj
  have hab : a ≠ b := by
    rintro rfl
    exact hne (hbase.symm.trans hbase')
  by_cases hlen : (allocs b).length = 0
  · -- an empty block sits under a hashed one, which is not this one
    obtain ⟨i, c, hi, hin'⟩ := hs.hidden j b hj hlen
    obtain ⟨hc, hbase'', -⟩ := h.hashed i c hi
    have hac := h.eq_of_inBlock ha hc hin hin'
    subst hac
    rw [← hbase'', hbase, hnone] at hi
    cases hi
  · have hpos : 0 < (allocs b).length.toNat := by
      refine Nat.pos_of_ne_zero fun hzero => hlen ?_
      exact UInt64.toNat_inj.mp hzero
    have hown : InBlock allocs b j := by
      unfold InBlock
      rw [hbase']
      omega
    exact hab (h.eq_of_inBlock ha hb hin hown)

/-- An ordered block that has the address as an inner one ends below the
address space, and the next key is above the address. -/
theorem HashSafe.above_of_inBlock (hs : HashSafe allocs t lens)
    (h : TableLive allocs t lens live) {k : Addr} {a : AllocId}
    (hk : t.sortedAllocationTable.find? k = some a) (hin : InBlock allocs a p) (hlt : k < p) :
    k.toNat + (allocs a).length.toNat < 2 ^ 64
      ∧ ∃ j b, t.sortedAllocationTable.find? j = some b ∧ p < j := by
  have hbase := (h.sorted k a hk).2.1
  obtain ⟨hle, hend⟩ := hin
  rw [hbase] at hle hend
  rw [UInt64.lt_iff_toNat_lt] at hlt
  obtain ⟨j, b, hj, hkj⟩ := hs.above k a hk (by omega)
  have hout := hs.no_key_inside h hk hj (fun heq => UInt64.lt_irrefl k (heq ▸ hkj))
  unfold InBlock at hout
  rw [hbase] at hout
  rw [UInt64.lt_iff_toNat_lt] at hkj
  have hj64 := j.toNat_lt
  refine ⟨by omega, j, b, hj, ?_⟩
  rw [UInt64.lt_iff_toNat_lt]
  omega

/-- The alias test never passes on a block that ends at the top of the
address space, and elsewhere it is membership. -/
theorem inBlock_of_alias {k : Addr} {a : AllocId} (hbase : (allocs a).pointer = k)
    (hfits : k.toNat + (allocs a).length.toNat ≤ 2 ^ 64)
    (halias : doesItAlias k (allocs a).length p ≠ -1) : InBlock allocs a p := by
  unfold InBlock
  rw [hbase]
  rcases Nat.lt_or_eq_of_le hfits with hlt | htop
  · rw [ne_eq, doesItAlias_eq_neg_one hlt, not_not] at halias
    exact halias
  · refine absurd ?_ halias
    have hend : k + (allocs a).length = 0 := by
      apply UInt64.toNat_inj.mp
      rw [UInt64.toNat_add, htop]
      rfl
    unfold doesItAlias
    rw [hend, if_neg]
    intro hin
    exact absurd (UInt64.lt_iff_toNat_lt.mp hin.2) (Nat.not_lt_zero _)

/-- Away from the hashed blocks, the ordered half of a safe table
answers with the object that has the address. -/
theorem HashSafe.findSorted_eq_some (hs : HashSafe allocs t lens)
    (h : TableLive allocs t lens live)
    (hout : ∀ k a, t.hashAllocationTable.find? k = some a → ¬ InBlock allocs a p)
    {a : AllocId} :
    findSorted allocs t.sortedAllocationTable p = some a ↔ a ∈ live ∧ InBlock allocs a p := by
  rw [Texas.findSorted_eq_some]
  constructor
  · rintro (hk | ⟨-, -, k, hk, -, -, halias⟩)
    · obtain ⟨ha, hbase, -⟩ := h.sorted p a hk
      refine ⟨ha, Nat.le_of_eq (by rw [hbase]), ?_⟩
      rw [hbase]
      have hne : (allocs a).length.toNat ≠ 0 := by
        intro hzero
        obtain ⟨j, b, hj, hin⟩ := hs.hidden p a hk (UInt64.toNat_inj.mp hzero)
        exact hout j b hj hin
      omega
    · obtain ⟨ha, hbase, -⟩ := h.sorted k a hk
      have hfits := h.fits a ha
      rw [hbase] at hfits
      exact ⟨ha, inBlock_of_alias hbase hfits halias⟩
  · rintro ⟨ha, hin⟩
    have hk : t.sortedAllocationTable.find? (allocs a).pointer = some a := by
      rcases h.stored a ha with hk | hk
      · exact absurd hin (hout _ a hk)
      · exact hk
    by_cases hp : (allocs a).pointer = p
    · exact Or.inl (hp ▸ hk)
    · have hlt : (allocs a).pointer < p := by
        rw [UInt64.lt_iff_toNat_lt]
        exact Nat.lt_of_le_of_ne hin.1 fun heq => hp (UInt64.toNat_inj.mp heq)
      obtain ⟨hend, habove⟩ := hs.above_of_inBlock h hk hin hlt
      have hgap : ∀ j, (allocs a).pointer < j → j ≤ p →
          t.sortedAllocationTable.find? j = none := by
        intro j hj hjp
        cases hf : t.sortedAllocationTable.find? j with
        | none => rfl
        | some b =>
            refine absurd ?_ (hs.no_key_inside h hk hf fun heq =>
              UInt64.lt_irrefl j (heq ▸ hj))
            rw [UInt64.lt_iff_toNat_lt] at hj
            rw [UInt64.le_iff_toNat_le] at hjp
            exact ⟨Nat.le_of_lt hj, Nat.lt_of_le_of_lt hjp hin.2⟩
      refine Or.inr ⟨hgap p hlt (UInt64.le_refl p), habove, (allocs a).pointer, hk, hlt,
        fun j hj hjp => hgap j hj (UInt64.le_of_lt hjp), ?_⟩
      rw [ne_eq, doesItAlias_eq_neg_one hend, not_not]
      exact hin

/-- A safe table answers as the plain search does. -/
theorem HashSafe.findAllocation_eq (hs : HashSafe allocs t lens)
    (h : TableLive allocs t lens live) (hms : ms.Perm t.masks) :
    findAllocation allocs { t with masks := ms } p = linearSearch allocs live p := by
  rw [findAllocation_masks]
  cases hf : probe t ms p with
  | some a =>
      obtain ⟨hk, hin⟩ := (hs.probe_eq_some h hms).mp hf
      exact (h.linearSearch_eq_some.mpr ⟨(h.hashed _ a hk).1, hin⟩).symm
  | none =>
      have hout : ∀ k a, t.hashAllocationTable.find? k = some a → ¬ InBlock allocs a p := by
        intro k a hk hin
        have hbase := (h.hashed k a hk).2.1
        rw [← hbase] at hk
        rw [(hs.probe_eq_some h hms).mpr ⟨hk, hin⟩] at hf
        cases hf
      apply Option.ext
      intro a
      rw [hs.findSorted_eq_some h hout, h.linearSearch_eq_some]

-- ========================================================== and no others

/-- Every order of the masks gives the plain search's answers. -/
def HashExact (allocs : AllocId → Allocation) (t : AllocationTable) (live : List AllocId) :
    Prop :=
  ∀ ms : List UInt64, ms.Perm t.masks →
    ∀ p, findAllocation allocs { t with masks := ms } p = linearSearch allocs live p

/-- With exact answers, what a probe returns has the address. -/
theorem HashExact.inBlock_of_probe (hex : HashExact allocs t live)
    (h : TableLive allocs t lens live) (hms : ms.Perm t.masks) {a : AllocId}
    (hf : probe t ms p = some a) : InBlock allocs a p := by
  have hfind := hex ms hms p
  rw [findAllocation_masks, hf] at hfind
  exact (h.linearSearch_eq_some.mp hfind.symm).2

/-- With exact answers, an address in a block is found there. -/
theorem HashExact.find_of_inBlock (hex : HashExact allocs t live)
    (h : TableLive allocs t lens live) {a : AllocId} (ha : a ∈ live)
    (hin : InBlock allocs a p) :
    probe t t.masks p = some a
      ∨ probe t t.masks p = none ∧ findSorted allocs t.sortedAllocationTable p = some a := by
  have hfind := hex t.masks (List.Perm.refl _) p
  rw [findAllocation_masks, h.linearSearch_eq_some.mpr ⟨ha, hin⟩] at hfind
  cases hf : probe t t.masks p with
  | some b =>
      rw [hf] at hfind
      exact Or.inl hfind
  | none =>
      rw [hf] at hfind
      exact Or.inr ⟨rfl, hfind⟩

/-- The object the ordered half answers with is stored in it. -/
theorem TableLive.sorted_of_findSorted (h : TableLive allocs t lens live) {a : AllocId}
    (hf : findSorted allocs t.sortedAllocationTable p = some a) :
    t.sortedAllocationTable.find? (allocs a).pointer = some a := by
  rcases Texas.findSorted_eq_some.mp hf with hk | ⟨-, -, k, hk, -⟩
  · rw [(h.sorted p a hk).2.1]
    exact hk
  · rw [(h.sorted k a hk).2.1]
    exact hk

/-- The last address of a block that is not empty. -/
theorem exists_last {a : AllocId}
    (hfits : (allocs a).pointer.toNat + (allocs a).length.toNat ≤ 2 ^ 64)
    (hpos : 0 < (allocs a).length.toNat) :
    ∃ p : Addr, p.toNat + 1 = (allocs a).pointer.toNat + (allocs a).length.toNat
      ∧ InBlock allocs a p := by
  refine ⟨UInt64.ofNat ((allocs a).pointer.toNat + (allocs a).length.toNat - 1), ?_, ?_⟩
  · rw [UInt64.toNat_ofNat_of_lt' (by show _ < 2 ^ 64; omega)]
    omega
  · unfold InBlock
    rw [UInt64.toNat_ofNat_of_lt' (by show _ < 2 ^ 64; omega)]
    omega

theorem HashExact.largest (hex : HashExact allocs t live) (h : TableLive allocs t lens live)
    {k : Addr} {a : AllocId} (hk : t.hashAllocationTable.find? k = some a) {n : UInt64}
    (hn : n ∈ lens) (hdvd : n.toNat ∣ k.toNat) : n.toNat ≤ (allocs a).length.toNat := by
  by_contra hlt
  have hbase := (h.hashed k a hk).2.1
  have hfits := (h.pow n hn).fits hdvd
  -- one past the block is still within the mask, which may come first
  obtain ⟨p, hp⟩ : ∃ p : Addr, p.toNat = k.toNat + (allocs a).length.toNat :=
    ⟨UInt64.ofNat (k.toNat + (allocs a).length.toNat),
      UInt64.toNat_ofNat_of_lt' (by show _ < 2 ^ 64; omega)⟩
  have hmask : maskForLength n ∈ t.masks := (h.masks _).mpr ⟨n, hn, rfl⟩
  have hin := hex.inBlock_of_probe h (List.perm_cons_erase hmask).symm
    (h.probe_head (p := p) hk hn hdvd (by omega) (by omega) _)
  unfold InBlock at hin
  rw [hbase] at hin
  omega

theorem HashExact.aligned (hex : HashExact allocs t live) (h : TableLive allocs t lens live)
    {k : Addr} {a : AllocId} (hk : t.hashAllocationTable.find? k = some a) :
    (allocs a).length.toNat ∣ k.toNat := by
  obtain ⟨ha, hbase, hlen⟩ := h.hashed k a hk
  have hpos : 0 < (allocs a).length.toNat := by
    obtain ⟨j, -, hj⟩ := h.pow _ hlen
    rw [hj]
    exact Nat.two_pow_pos j
  obtain ⟨p, hlast, hin⟩ := exists_last (h.fits a ha) hpos
  rw [hbase] at hlast
  rcases hex.find_of_inBlock h ha hin with hf | ⟨-, hf⟩
  · obtain ⟨-, n, hn, hdvd, -, hlt⟩ := h.probe_some (List.Perm.refl _) hf
    rw [hbase] at hdvd hlt
    -- the mask reaches the last address, and no larger one divides the base
    have hle := hex.largest h hk hn hdvd
    have heq : n.toNat = (allocs a).length.toNat := by omega
    rwa [← heq]
  · have hsorted := h.sorted_of_findSorted hf
    rw [hbase] at hsorted
    rw [(h.sorted k a hsorted).2.2] at hk
    cases hk

theorem HashExact.above (hex : HashExact allocs t live) (h : TableLive allocs t lens live)
    {k : Addr} {a : AllocId} (hk : t.sortedAllocationTable.find? k = some a)
    (hlen : 1 < (allocs a).length.toNat) :
    ∃ j b, t.sortedAllocationTable.find? j = some b ∧ k < j := by
  obtain ⟨ha, hbase, hnone⟩ := h.sorted k a hk
  obtain ⟨p, hlast, hin⟩ := exists_last (h.fits a ha) (by omega)
  rw [hbase] at hlast
  rcases hex.find_of_inBlock h ha hin with hf | ⟨-, hf⟩
  · have hhash := (h.probe_some (List.Perm.refl _) hf).1
    rw [hbase, hnone] at hhash
    cases hhash
  · rcases Texas.findSorted_eq_some.mp hf with hp | ⟨-, ⟨j, b, hj, hpj⟩, -⟩
    · have hpk := (h.sorted p a hp).2.1.symm.trans hbase
      rw [hpk] at hlast
      omega
    · refine ⟨j, b, hj, ?_⟩
      rw [UInt64.lt_iff_toNat_lt] at hpj ⊢
      omega

theorem HashExact.hidden (hex : HashExact allocs t live) (h : TableLive allocs t lens live)
    {k : Addr} {a : AllocId} (hk : t.sortedAllocationTable.find? k = some a)
    (hlen : (allocs a).length = 0) :
    ∃ j b, t.hashAllocationTable.find? j = some b ∧ InBlock allocs b k := by
  cases hf : probe t t.masks k with
  | some b =>
      exact ⟨_, b, (h.probe_some (List.Perm.refl _) hf).1,
        hex.inBlock_of_probe h (List.Perm.refl _) hf⟩
  | none =>
      -- the empty block answers for its own base, which it does not have
      have hfind := hex t.masks (List.Perm.refl _) k
      rw [findAllocation_masks, hf] at hfind
      dsimp only at hfind
      rw [findSorted_of_key hk] at hfind
      have hin := (h.linearSearch_eq_some.mp hfind.symm).2
      have hzero : (allocs a).length.toNat = 0 := by
        rw [hlen]
        rfl
      unfold InBlock at hin
      omega

end Probe

/-- The lookup agrees with the plain search, for every order of the
masks, exactly in the safe tables. -/
theorem hashExact_iff_hashSafe (allocs : AllocId → Allocation) {t : AllocationTable}
    {lens : List UInt64} {live : List AllocId} (hbuilt : Built allocs t lens live) :
    HashExact allocs t live ↔ HashSafe allocs t lens := by
  have h := hbuilt.tableLive
  constructor
  · intro hex
    exact ⟨fun k a hk => hex.aligned h hk, fun k a hk n hn hdvd => hex.largest h hk hn hdvd,
      fun k a hk hlen => hex.above h hk hlen, fun k a hk hlen => hex.hidden h hk hlen⟩
  · intro hs ms hms p
    exact hs.findAllocation_eq h hms

/-- An aligned block of 8 bytes and masks for 8 and 16 bytes: object 1
at 0x1000. -/
def eightBytes : AllocId → Allocation := fun _ => Allocation.new 0x1000 8 0

theorem built_eightBytes (lens : List UInt64) (hpow : ∀ n ∈ lens, PowerOfTwo n) :
    Built eightBytes (insertAllocation eightBytes (AllocationTable.ofMasks lens) 0x1000 1)
      lens [1] :=
  Built.insert 1 (by decide) (fun b hb => absurd hb List.not_mem_nil) (Built.new lens hpow)

/-- The mask for 16 bytes answers for the 8 bytes after the block. -/
theorem probe_past_block :
    Built eightBytes (insertAllocation eightBytes (AllocationTable.ofMasks [8, 16]) 0x1000 1)
        [8, 16] [1]
      ∧ findAllocation eightBytes
          (insertAllocation eightBytes (AllocationTable.ofMasks [8, 16]) 0x1000 1) 0x1008
        = some 1
      ∧ linearSearch eightBytes [1] 0x1008 = none
      ∧ ¬ HashExact eightBytes
          (insertAllocation eightBytes (AllocationTable.ofMasks [8, 16]) 0x1000 1) [1] := by
  have hfind : findAllocation eightBytes
      (insertAllocation eightBytes (AllocationTable.ofMasks [8, 16]) 0x1000 1) 0x1008
      = some 1 := by decide
  have hlin : linearSearch eightBytes [1] 0x1008 = none := by decide
  refine ⟨built_eightBytes _ fun n hn => ?_, hfind, hlin, fun hex => ?_⟩
  · rcases List.mem_cons.mp hn with rfl | hn
    · exact ⟨3, by decide, rfl⟩
    · rw [List.mem_singleton.mp hn]
      exact ⟨4, by decide, rfl⟩
  · have h := hex _ (List.Perm.refl _) 0x1008
    rw [hlin] at h
    exact absurd (hfind.symm.trans h) (by decide)

/-- With the mask for 8 bytes alone the table is safe. -/
theorem hashExact_eightBytes :
    HashExact eightBytes
      (insertAllocation eightBytes (AllocationTable.ofMasks [8]) 0x1000 1) [1] := by
  have hpow : ∀ n ∈ [(8 : UInt64)], PowerOfTwo n := by
    intro n hn
    rw [List.mem_singleton.mp hn]
    exact ⟨3, by decide, rfl⟩
  have hsorted : ∀ k a, (insertAllocation eightBytes (AllocationTable.ofMasks [8]) 0x1000
      1).sortedAllocationTable.find? k ≠ some a := fun k a => by
    show (SortedMap.empty : SortedMap Addr AllocId).find? k ≠ some a
    simp
  have hhash : ∀ k a, (insertAllocation eightBytes (AllocationTable.ofMasks [8]) 0x1000
      1).hashAllocationTable.find? k = some a → k = 0x1000 := by
    intro k a hk
    rw [← SortedMap.mem_entries_iff] at hk
    have hk' : (k, a) ∈ [((0x1000 : Addr), 1)] := hk
    simp at hk'
    exact hk'.1
  refine (hashExact_iff_hashSafe eightBytes (built_eightBytes [8] hpow)).mpr
    ⟨fun k a hk => ?_, fun k a hk n hn hdvd => ?_, fun k a hk => absurd hk (hsorted k a),
      fun k a hk => absurd hk (hsorted k a)⟩
  · rw [hhash k a hk]
    show 8 ∣ 0x1000
    decide
  · rw [List.mem_singleton.mp hn]
    exact Nat.le_refl _

end Carmot.Texas
