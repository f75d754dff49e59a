/-
What the layout of the state packer guarantees.

The documented steps round the running offset UP to the alignment, then
past the end of a cache line or page the allocation would straddle. The
code adds the residue of the offset instead of what is missing to the
next multiple, which is a multiple again only from an offset half an
alignment past one (or from a multiple). The two later roundings are
the documented ones, and hide the first whenever they move the offset
to a boundary the alignment divides.

Everything is stated in `Nat`: `SumsFit` says that no sum the code
forms reaches 2^64, and then the machine's offsets are the exact ones.
-/
import Carmot.Texas.StatePacker

namespace Carmot.Texas

-- ========================================================= no wrap-around

/-- No sum of `roundPast` wraps. -/
def RoundFits (offset len size : UInt64) : Prop :=
  offset % size ≠ 0 →
    len.toNat + (offset % size).toNat < 2 ^ 64
      ∧ (size < len + offset % size → offset.toNat + (size - offset % size).toNat < 2 ^ 64)

instance (offset len size : UInt64) : Decidable (RoundFits offset len size) :=
  inferInstanceAs (Decidable (_ → _))

namespace StatePacker

/-- No sum of `state_packer_add_allocation` wraps. -/
structure SumsFit (s : StatePacker) (r : PackRequest) : Prop where
  residue : s.currentOffset.toNat + (s.currentOffset % s.alignment r).toNat < 2 ^ 64
  line : RoundFits (s.residueOffset r) r.lenOfAllocation s.lineSize
  page : RoundFits (s.lineOffset r) r.lenOfAllocation s.pageSize
  length : (s.pageOffset r).toNat + r.lenOfAllocation.toNat < 2 ^ 64

/-- A condition on every addition of a layout: on the packer before it
and the allocation. -/
def EachStep (P : StatePacker → PackRequest → Prop) : StatePacker → List PackRequest → Prop
  | _, [] => True
  | s, r :: rs => P s r ∧ EachStep P (s.addAllocation r).1 rs

-- ========================================================= the two sides

/-- What the comment above `state_packer_add_allocation` says about the
allocations of a layout. -/
structure Documented (s : StatePacker) (placed : List (PackRequest × UInt64)) : Prop where
  aligned : ∀ p ∈ placed, (s.alignment p.1).toNat ∣ p.2.toNat
  inOrder : placed.Pairwise fun p q => p.2.toNat + p.1.lenOfAllocation.toNat ≤ q.2.toNat
  inLine : ∀ p ∈ placed, p.1.lenOfAllocation ≤ s.lineSize →
    p.2.toNat % s.lineSize.toNat + p.1.lenOfAllocation.toNat ≤ s.lineSize.toNat
  inPage : ∀ p ∈ placed, p.1.lenOfAllocation ≤ s.pageSize →
    p.2.toNat % s.pageSize.toNat + p.1.lenOfAllocation.toNat ≤ s.pageSize.toNat

/-- The next multiple of `size` above an offset. -/
def nextBoundary (offset size : UInt64) : Nat := (offset.toNat / size.toNat + 1) * size.toNat

/-- When the roundings come out right. An allocation that no boundary
moves needs an offset that is a multiple of the alignment or half an
alignment past one; one that is moved needs an aligned boundary, and
room in the cache line at a page boundary. -/
structure Suits (s : StatePacker) (r : PackRequest) : Prop where
  stays : straddles (s.residueOffset r) r.lenOfAllocation s.lineSize = false →
    straddles (s.lineOffset r) r.lenOfAllocation s.pageSize = false →
    (s.alignment r).toNat ∣ 2 * (s.currentOffset.toNat % (s.alignment r).toNat)
  ontoLine : straddles (s.residueOffset r) r.lenOfAllocation s.lineSize = true →
    straddles (s.lineOffset r) r.lenOfAllocation s.pageSize = false →
    (s.alignment r).toNat ∣ nextBoundary (s.residueOffset r) s.lineSize
  ontoPage : straddles (s.lineOffset r) r.lenOfAllocation s.pageSize = true →
    (s.alignment r).toNat ∣ nextBoundary (s.lineOffset r) s.pageSize
      ∧ (r.lenOfAllocation ≤ s.lineSize →
        nextBoundary (s.lineOffset r) s.pageSize % s.lineSize.toNat + r.lenOfAllocation.toNat
          ≤ s.lineSize.toNat)

end StatePacker

-- ======================================================= one rounding

section Rounding

variable {offset len size : UInt64}

theorem ne_zero_iff_toNat_mod : offset % size ≠ 0 ↔ offset.toNat % size.toNat ≠ 0 := by
  rw [Ne, Ne, ← UInt64.toNat_inj, UInt64.toNat_mod, UInt64.toNat_zero]

/-- The test of `roundPast`, exactly. -/
theorem straddles_iff (hfit : RoundFits offset len size) :
    straddles offset len size = true ↔
      offset.toNat % size.toNat ≠ 0
        ∧ size.toNat < len.toNat + offset.toNat % size.toNat := by
  unfold straddles
  rw [Bool.and_eq_true, decide_eq_true_iff, decide_eq_true_iff, ne_zero_iff_toNat_mod]
  apply and_congr_right
  intro hne
  have hsum := (hfit (ne_zero_iff_toNat_mod.mpr hne)).1
  rw [gt_iff_lt, UInt64.lt_iff_toNat_lt, UInt64.toNat_add, Nat.mod_eq_of_lt hsum,
    UInt64.toNat_mod]

/-- `roundPast` moves an offset to the next boundary. -/
theorem toNat_roundPast_of_straddles (hsize : 0 < size.toNat) (hfit : RoundFits offset len size)
    (h : straddles offset len size = true) :
    (roundPast offset len size).toNat = StatePacker.nextBoundary offset size := by
  have hlt : offset.toNat % size.toNat < size.toNat := Nat.mod_lt _ hsize
  have hmod : (offset % size).toNat = offset.toNat % size.toNat := UInt64.toNat_mod ..
  have hsub : (size - offset % size).toNat = size.toNat - offset.toNat % size.toNat := by
    rw [UInt64.toNat_sub_of_le, hmod]
    rw [UInt64.le_iff_toNat_le, hmod]
    exact Nat.le_of_lt hlt
  have hfits : offset.toNat + (size - offset % size).toNat < 2 ^ 64 := by
    unfold straddles at h
    rw [Bool.and_eq_true, decide_eq_true_iff, decide_eq_true_iff] at h
    exact (hfit h.1).2 h.2
  have hdiv := Nat.div_add_mod' offset.toNat size.toNat
  unfold roundPast StatePacker.nextBoundary
  rw [if_pos h, UInt64.toNat_add, Nat.mod_eq_of_lt hfits, hsub, Nat.succ_mul]
  omega

theorem roundPast_of_not_straddles (h : straddles offset len size = false) :
    roundPast offset len size = offset := by
  unfold roundPast
  rw [if_neg (by rw [h]; exact Bool.false_ne_true)]

theorem dvd_nextBoundary (offset size : UInt64) :
    size.toNat ∣ StatePacker.nextBoundary offset size := Nat.dvd_mul_left ..

theorem lt_nextBoundary (hsize : 0 < size.toNat) :
    offset.toNat < StatePacker.nextBoundary offset size := by
  have hdiv := Nat.div_add_mod' offset.toNat size.toNat
  have hlt : offset.toNat % size.toNat < size.toNat := Nat.mod_lt _ hsize
  unfold StatePacker.nextBoundary
  rw [Nat.succ_mul]
  omega

/-- A rounding never moves an offset down. -/
theorem le_roundPast (hsize : 0 < size.toNat) (hfit : RoundFits offset len size) :
    offset.toNat ≤ (roundPast offset len size).toNat := by
  cases h : straddles offset len size with
  | false => rw [roundPast_of_not_straddles h]
  | true =>
      rw [toNat_roundPast_of_straddles hsize hfit h]
      exact Nat.le_of_lt (lt_nextBoundary hsize)

/-- After a rounding, an allocation that fits in a line does not
straddle one. -/
theorem roundPast_fits (hsize : 0 < size.toNat) (hfit : RoundFits offset len size)
    (hlen : len ≤ size) :
    (roundPast offset len size).toNat % size.toNat + len.toNat ≤ size.toNat := by
  have hlen := UInt64.le_iff_toNat_le.mp hlen
  cases h : straddles offset len size with
  | false =>
      rw [roundPast_of_not_straddles h]
      rw [Bool.eq_false_iff, Ne, straddles_iff hfit] at h
      by_cases hz : offset.toNat % size.toNat = 0
      · omega
      · have hle : ¬ size.toNat < len.toNat + offset.toNat % size.toNat := fun hlt => h ⟨hz, hlt⟩
        omega
  | true =>
      rw [toNat_roundPast_of_straddles hsize hfit h,
        Nat.mod_eq_zero_of_dvd (dvd_nextBoundary offset size)]
      omega

/-- Adding the residue gives a multiple exactly from a multiple, or from
half an alignment past one. -/
theorem dvd_add_mod_iff (n a : Nat) : a ∣ n + n % a ↔ a ∣ 2 * (n % a) := by
  have hdiv := Nat.div_add_mod n a
  have hsum : n + n % a = a * (n / a) + 2 * (n % a) := by omega
  rw [hsum]
  exact Nat.dvd_add_right (Nat.dvd_mul_right a (n / a))

end Rounding

-- ==================================================== one addition

namespace StatePacker

variable {s : StatePacker} {r : PackRequest}

theorem lineSize_pos (s : StatePacker) : 0 < s.lineSize.toNat := by
  unfold lineSize
  split
  · decide
  next h => exact Nat.pos_of_ne_zero fun hz => h (UInt64.toNat_inj.mp hz)

theorem pageSize_pos (s : StatePacker) : 0 < s.pageSize.toNat := by
  unfold pageSize
  split
  · decide
  next h => exact Nat.pos_of_ne_zero fun hz => h (UInt64.toNat_inj.mp hz)

theorem toNat_residueOffset (hfit : s.SumsFit r) :
    (s.residueOffset r).toNat
      = s.currentOffset.toNat + s.currentOffset.toNat % (s.alignment r).toNat := by
  unfold residueOffset addResidue
  rw [UInt64.toNat_add, Nat.mod_eq_of_lt hfit.residue, UInt64.toNat_mod]

/-- Where the target is a multiple of the alignment. -/
theorem dvd_pageOffset_iff (hfit : s.SumsFit r) :
    (s.alignment r).toNat ∣ (s.pageOffset r).toNat ↔
      (s.alignment r).toNat ∣
        if straddles (s.lineOffset r) r.lenOfAllocation s.pageSize then
          nextBoundary (s.lineOffset r) s.pageSize
        else if straddles (s.residueOffset r) r.lenOfAllocation s.lineSize then
          nextBoundary (s.residueOffset r) s.lineSize
        else 2 * (s.currentOffset.toNat % (s.alignment r).toNat) := by
  cases hpage : straddles (s.lineOffset r) r.lenOfAllocation s.pageSize with
  | true =>
      rw [if_pos rfl, pageOffset, toNat_roundPast_of_straddles s.pageSize_pos hfit.page hpage]
  | false =>
      rw [if_neg Bool.false_ne_true, pageOffset, roundPast_of_not_straddles hpage]
      cases hline : straddles (s.residueOffset r) r.lenOfAllocation s.lineSize with
      | true =>
          rw [if_pos rfl, lineOffset, toNat_roundPast_of_straddles s.lineSize_pos hfit.line hline]
      | false =>
          rw [if_neg Bool.false_ne_true, lineOffset, roundPast_of_not_straddles hline,
            toNat_residueOffset hfit]
          exact dvd_add_mod_iff _ _

/-- Where an allocation that fits in a cache line stays in one: a page
boundary it is moved to has to leave room. -/
theorem pageOffset_inLine_iff (hfit : s.SumsFit r) (hlen : r.lenOfAllocation ≤ s.lineSize) :
    (s.pageOffset r).toNat % s.lineSize.toNat + r.lenOfAllocation.toNat ≤ s.lineSize.toNat ↔
      (straddles (s.lineOffset r) r.lenOfAllocation s.pageSize = true →
        nextBoundary (s.lineOffset r) s.pageSize % s.lineSize.toNat + r.lenOfAllocation.toNat
          ≤ s.lineSize.toNat) := by
  cases hpage : straddles (s.lineOffset r) r.lenOfAllocation s.pageSize with
  | true =>
      rw [pageOffset, toNat_roundPast_of_straddles s.pageSize_pos hfit.page hpage]
      exact ⟨fun h _ => h, fun h => h rfl⟩
  | false =>
      rw [pageOffset, roundPast_of_not_straddles hpage]
      exact ⟨fun _ h => (Bool.false_ne_true h).elim,
        fun _ => roundPast_fits s.lineSize_pos hfit.line hlen⟩

/-- One addition places its allocation as documented exactly when the
roundings suit it. -/
theorem suits_iff (hfit : s.SumsFit r) :
    s.Suits r ↔
      (s.alignment r).toNat ∣ (s.pageOffset r).toNat
        ∧ (r.lenOfAllocation ≤ s.lineSize →
          (s.pageOffset r).toNat % s.lineSize.toNat + r.lenOfAllocation.toNat
            ≤ s.lineSize.toNat) := by
  rw [dvd_pageOffset_iff hfit]
  constructor
  · intro h
    constructor
    · cases hpage : straddles (s.lineOffset r) r.lenOfAllocation s.pageSize with
      | true => exact (h.ontoPage hpage).1
      | false =>
          cases hline : straddles (s.residueOffset r) r.lenOfAllocation s.lineSize with
          | true => exact h.ontoLine hline hpage
          | false => exact h.stays hline hpage
    · intro hlen
      rw [pageOffset_inLine_iff hfit hlen]
      exact fun hpage => (h.ontoPage hpage).2 hlen
  · rintro ⟨halign, hline⟩
    constructor
    · intro hl hp
      rwa [hp, hl, if_neg Bool.false_ne_true, if_neg Bool.false_ne_true] at halign
    · intro hl hp
      rwa [hp, hl, if_neg Bool.false_ne_true, if_pos rfl] at halign
    · intro hp
      refine ⟨by rwa [hp, if_pos rfl] at halign, fun hlen => ?_⟩
      exact (pageOffset_inLine_iff hfit hlen).mp (hline hlen) hp

/-- The packer keeps its sizes. -/
@[simp] theorem addAllocation_lineSize : (s.addAllocation r).1.lineSize = s.lineSize := by
  have h := s.lineSize_pos
  show (if s.lineSize = 0 then 64 else s.lineSize) = s.lineSize
  rw [if_neg]
  intro hz
  rw [hz] at h
  exact Nat.lt_irrefl 0 h

@[simp] theorem addAllocation_pageSize : (s.addAllocation r).1.pageSize = s.pageSize := by
  have h := s.pageSize_pos
  show (if s.pageSize = 0 then 4096 else s.pageSize) = s.pageSize
  rw [if_neg]
  intro hz
  rw [hz] at h
  exact Nat.lt_irrefl 0 h

@[simp] theorem addAllocation_alignment (r' : PackRequest) :
    (s.addAllocation r).1.alignment r' = s.alignment r' := rfl

/-- The running offset after an addition is the end of the allocation. -/
theorem toNat_addAllocation_currentOffset (hfit : s.SumsFit r) :
    (s.addAllocation r).1.currentOffset.toNat
      = (s.pageOffset r).toNat + r.lenOfAllocation.toNat := by
  show (s.pageOffset r + r.lenOfAllocation).toNat = _
  rw [UInt64.toNat_add, Nat.mod_eq_of_lt hfit.length]

/-- A target is not below the running offset. -/
theorem currentOffset_le_pageOffset (hfit : s.SumsFit r) :
    s.currentOffset.toNat ≤ (s.pageOffset r).toNat := by
  calc s.currentOffset.toNat
      ≤ (s.residueOffset r).toNat := by rw [toNat_residueOffset hfit]; omega
    _ ≤ (s.lineOffset r).toNat := le_roundPast s.lineSize_pos hfit.line
    _ ≤ (s.pageOffset r).toNat := le_roundPast s.pageSize_pos hfit.page

-- ===================================================== a whole layout

/-- Every target of a layout is at or above the offset it starts from. -/
theorem currentOffset_le_target {rs : List PackRequest} :
    ∀ {s : StatePacker}, EachStep SumsFit s rs →
      ∀ p ∈ s.layout rs, s.currentOffset.toNat ≤ p.2.toNat := by
  induction rs with
  | nil => intro s _ p hp; cases hp
  | cons r rs ih =>
      intro s hfit p hp
      have hle := currentOffset_le_pageOffset hfit.1
      rcases List.mem_cons.mp hp with hp | hp
      · rw [hp]
        exact hle
      · have hrest := ih hfit.2 p hp
        rw [toNat_addAllocation_currentOffset hfit.1] at hrest
        omega

/-- The allocations of a layout follow one another. -/
theorem layout_inOrder {rs : List PackRequest} :
    ∀ {s : StatePacker}, EachStep SumsFit s rs →
      (s.layout rs).Pairwise
        fun p q => p.2.toNat + p.1.lenOfAllocation.toNat ≤ q.2.toNat := by
  induction rs with
  | nil => intro s _; exact List.Pairwise.nil
  | cons r rs ih =>
      intro s hfit
      refine List.Pairwise.cons (fun q hq => ?_) (ih hfit.2)
      have hle := currentOffset_le_target hfit.2 q hq
      rw [toNat_addAllocation_currentOffset hfit.1] at hle
      exact hle

/-- Is an allocation aligned, and in one cache line if it fits in one? -/
def Placed (s : StatePacker) (r : PackRequest) (target : UInt64) : Prop :=
  (s.alignment r).toNat ∣ target.toNat
    ∧ (r.lenOfAllocation ≤ s.lineSize →
      target.toNat % s.lineSize.toNat + r.lenOfAllocation.toNat ≤ s.lineSize.toNat)

theorem placed_addAllocation (r' : PackRequest) (target : UInt64) :
    (s.addAllocation r).1.Placed r' target ↔ s.Placed r' target := by
  unfold Placed
  rw [addAllocation_lineSize, addAllocation_alignment]

/-- All allocations of a layout are placed exactly when the roundings
suit each. -/
theorem layout_placed_iff {rs : List PackRequest} :
    ∀ {s : StatePacker}, EachStep SumsFit s rs →
      ((∀ p ∈ s.layout rs, s.Placed p.1 p.2) ↔ EachStep Suits s rs) := by
  induction rs with
  | nil =>
      intro s _
      exact ⟨fun _ => trivial, fun _ p hp => by cases hp⟩
  | cons r rs ih =>
      intro s hfit
      have hrest := ih hfit.2
      simp only [placed_addAllocation] at hrest
      simp only [layout, List.forall_mem_cons, EachStep]
      exact and_congr (suits_iff hfit.1).symm hrest

/-- No allocation of a layout that fits in a page straddles one. -/
theorem layout_inPage {rs : List PackRequest} :
    ∀ {s : StatePacker}, EachStep SumsFit s rs →
      ∀ p ∈ s.layout rs, p.1.lenOfAllocation ≤ s.pageSize →
        p.2.toNat % s.pageSize.toNat + p.1.lenOfAllocation.toNat ≤ s.pageSize.toNat := by
  induction rs with
  | nil => intro s _ p hp; cases hp
  | cons r rs ih =>
      intro s hfit p hp
      rcases List.mem_cons.mp hp with hp | hp
      · rw [hp]
        exact roundPast_fits s.pageSize_pos hfit.1.page
      · have hrest := ih hfit.2 p hp
        rwa [addAllocation_pageSize] at hrest

/-- A layout is as documented exactly when the roundings suit every
allocation of it. -/
theorem layout_documented_iff (s : StatePacker) (rs : List PackRequest)
    (hfit : EachStep SumsFit s.startLayout rs) :
    s.startLayout.Documented (s.startLayout.layout rs) ↔ EachStep Suits s.startLayout rs := by
  rw [← layout_placed_iff hfit]
  constructor
  · intro h p hp
    exact ⟨h.aligned p hp, h.inLine p hp⟩
  · intro h
    exact
      { aligned := fun p hp => (h p hp).1
        inOrder := layout_inOrder hfit
        inLine := fun p hp => (h p hp).2
        inPage := layout_inPage hfit }

/-- Two allocations the packer places as documented: 4 bytes aligned to
8, then 8 bytes aligned to 8, from offset 4. -/
theorem layout_documented_halfWay :
    (StatePacker.new 0 64).startLayout.Documented
      ((StatePacker.new 0 64).startLayout.layout [⟨4, 8⟩, ⟨8, 8⟩]) := by
  refine (layout_documented_iff _ _ ?_).mpr ?_
  · refine ⟨⟨?_, ?_, ?_, ?_⟩, ⟨?_, ?_, ?_, ?_⟩, trivial⟩ <;> decide
  · refine ⟨⟨?_, ?_, ?_⟩, ⟨?_, ?_, ?_⟩, trivial⟩ <;> decide

/-- From offset 2 the target of an allocation aligned to 8 is 4. -/
theorem not_documented_residue :
    ¬ (StatePacker.new 0 64).startLayout.Documented
      ((StatePacker.new 0 64).startLayout.layout [⟨2, 1⟩, ⟨8, 8⟩]) := by
  intro h
  have haligned := h.aligned (⟨8, 8⟩, 4) (by decide)
  exact absurd haligned (by decide)

end StatePacker

end Carmot.Texas
