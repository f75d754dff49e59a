/-
End to end: from the accesses a program makes to the Final sets.

`final_usage_isLUB` is the single-ROI result. Cut where no iteration is
open, batches classify an address by its history up to their ends; the
class only grows from batch to batch, and a batch that leaves the
address alone does not change it. So the batch that touches the address
last records the class of the whole history, and every other recorded
class lies below it.

`final_nested_iff` is the account of nested ROIs in one batch: a state
ends up with the classes of the direct histories of the ROIs below it.
The class of its own dynamic extent is a different thing: an inner ROI
iterates on its own, and its class is copied up as it is.
-/
import Mathlib.Order.Bounds.Basic
import Carmot.Texas.Proofs.Classified

namespace Carmot.Texas

open Carmot.Lib

-- =============================================================== one ROI

/-- A run of one ROI, cut into batches where no iteration is open, with
nothing past their ends. -/
structure RoiBatches (env : Env) (s : StateId) (bs : List Batch) : Prop where
  single : SingleRun env.tree s (rawEntries bs)
  closed : ∀ pre, pre <+: bs → stackAfter [] (rawEntries pre) = []
  overrun : ∀ b ∈ bs, b.overrun.operation = .redundant

theorem RoiBatches.closedBatches {env : Env} {s : StateId} {bs : List Batch}
    (h : RoiBatches env s bs) : ClosedBatches env bs where
  nested := h.single.nested
  closed := h.closed
  overrun := h.overrun
  no_commit bs₁ b bs₂ hbs e he := by
    apply h.single.no_commit e
    rw [hbs, rawEntries_append]
    exact List.mem_append_left _ he

/-- Only `s` is ever open. -/
theorem mem_stackAfter_single {s t : StateId} (es : List ShadowEntry) :
    ∀ {stk : List StateId}, (∀ u ∈ stk, u = s) →
      (∀ e ∈ es, e.operation = .stateBegin ∨ e.operation = .stateEnd →
        e.sizeState = .statePtr s) →
      t ∈ stackAfter stk es → t = s := by
  induction es with
  | nil => intro stk hstk _ ht; exact hstk t ht
  | cons e es ih =>
      intro stk hstk honly ht
      refine ih ?_ (fun e' he' => honly e' (List.mem_cons_of_mem _ he')) ht
      intro u hu
      unfold stackStep at hu
      split at hu
      next v hop hv =>
        rcases List.mem_cons.mp hu with rfl | hu
        · rw [honly e (List.mem_cons_self ..) (Or.inl hop)] at hv
          injection hv with hv
          exact hv.symm
        · exact hstk u hu
      · exact hstk u (List.mem_of_mem_tail hu)
      · exact hstk u hu

/-- Histories of runs that meet where no ROI is open are appended. -/
theorem directHistory_append {r : StateId} {p : Addr} {es : List ShadowEntry}
    (hclosed : stackAfter [] es = []) (fs : List ShadowEntry) :
    directHistory r p (es ++ fs) = directHistory r p es ++ directHistory r p fs := by
  unfold directHistory
  rw [historyFrom_append, hclosed]
  have h := @historyFrom_done .direct r p (historyFrom .direct r p [] [] es) fs [] []
    fun h => absurd h List.not_mem_nil
  rwa [List.append_nil] at h

theorem touched_directHistory {r : StateId} {p : Addr} {es : List ShadowEntry} :
    (directHistory r p es).touched = true ↔ Touches r p [] es := by
  unfold directHistory
  rw [touched_historyFrom]
  simp [History.touched]

/-- Some batch touches the address last, and the class is final from
then on. -/
theorem exists_last_touch {s : StateId} {p : Addr} (bs : List Batch) :
    (∀ pre, pre <+: bs → stackAfter [] (rawEntries pre) = []) →
      (directHistory s p (rawEntries bs)).touched = true →
      ∃ bs₁ b bs₂, bs = bs₁ ++ b :: bs₂ ∧ Touches s p [] b.entries
        ∧ (directHistory s p (rawEntries (bs₁ ++ [b]))).usage
          = (directHistory s p (rawEntries bs)).usage := by
  induction bs using List.reverseRecOn with
  | nil =>
      intro _ ht
      cases ht
  | append_singleton bs b ih =>
      intro hclosed ht
      have hsplit : directHistory s p (rawEntries (bs ++ [b]))
          = directHistory s p (rawEntries bs) ++ directHistory s p b.entries := by
        rw [rawEntries_append, rawEntries_singleton,
          directHistory_append (hclosed bs ⟨[b], rfl⟩)]
      cases htb : (directHistory s p b.entries).touched with
      | true => exact ⟨bs, b, [], rfl, touched_directHistory.mp htb, rfl⟩
      | false =>
          rw [hsplit, History.touched_append, htb, Bool.or_false] at ht
          obtain ⟨bs₁, b', bs₂, hbs, htouch, husage⟩ :=
            ih (fun pre h => hclosed pre (h.trans ⟨[b], rfl⟩)) ht
          refine ⟨bs₁, b', bs₂ ++ [b], by rw [hbs]; simp, htouch, ?_⟩
          rw [husage, hsplit, History.usage_append_untouched _ htb]

theorem tracks_of_all {o : Options} (hi : o.trackInput = true) (ho : o.trackOutput = true)
    (c : StateClass) : o.tracks c = true := by
  cases c <;> simp [Options.tracks, hi, ho]

section OneRoi

variable {env : Env} {s : StateId} {bs : List Batch} {live : List LiveRange}
  {rng : LiveRange} {a : AllocId} {p : Addr}

/-- With every class tracked, the classes recorded for the one ROI are
those its history has at the ends of the batches that touch the
address. -/
theorem RoiBatches.final_iff (hroi : RoiBatches env s bs)
    (hrun : AllocatedRun (rawEntries bs) live) (htracks : ∀ c, env.options.tracks c = true)
    (hrng : rng ∈ live) (hp : rng.Contains p) (hregion : RegionFree (rawEntries bs) p)
    (ha : (runBatches env texasInit bs).originToAllocMap rng.origin = some a)
    (c : StateClass) :
    Final (reportStatistics env [s] (runBatches env texasInit bs)) a s
        (.offset c (p - rng.base))
      ↔ ∃ bs₁ b bs₂, bs = bs₁ ++ b :: bs₂ ∧ Touches s p [] b.entries
        ∧ classOf (directHistory s p (rawEntries (bs₁ ++ [b]))) = some c := by
  rw [final_access_iff hroi.closedBatches hrun (List.mem_singleton.mpr rfl) hrng hp hregion ha]
  constructor
  · intro h
    obtain ⟨bs₁, b, bs₂, r, hbs, htouch, -, hclass, -⟩ := h
    have hrs : r = s := by
      obtain ⟨pre, e, post, hb, -, -, hhead⟩ := htouch
      refine mem_stackAfter_single pre (fun u hu => absurd hu List.not_mem_nil) ?_
        (List.mem_of_mem_head? hhead)
      intro e' he'
      apply hroi.single.only e'
      rw [hbs, rawEntries_append]
      refine List.mem_append_right _ (List.mem_append_left _ ?_)
      rw [hb]
      exact List.mem_append_left _ he'
    subst hrs
    exact ⟨bs₁, b, bs₂, hbs, htouch, hclass⟩
  · intro h
    obtain ⟨bs₁, b, bs₂, hbs, htouch, hclass⟩ := h
    exact ⟨bs₁, b, bs₂, s, hbs, htouch, env.tree.self_mem_chain s, hclass, htracks c⟩

/-- The history at the end of a batch is where the whole one starts. -/
theorem RoiBatches.usage_le (hroi : RoiBatches env s bs) {bs₁ bs₂ : List Batch} {b : Batch}
    (hbs : bs = bs₁ ++ b :: bs₂) (htouch : Touches s p [] b.entries) :
    (directHistory s p (rawEntries (bs₁ ++ [b]))).touched = true
      ∧ (directHistory s p (rawEntries (bs₁ ++ [b]))).usage
        ≤ (directHistory s p (rawEntries bs)).usage := by
  have hclosed := fun pre h => hroi.closed pre h
  have htouched : (directHistory s p (rawEntries (bs₁ ++ [b]))).touched = true := by
    rw [rawEntries_append, rawEntries_singleton,
      directHistory_append (hclosed bs₁ ⟨b :: bs₂, hbs.symm⟩), History.touched_append,
      touched_directHistory.mpr htouch, Bool.or_true]
  have hsplit : rawEntries bs = rawEntries (bs₁ ++ [b]) ++ rawEntries bs₂ := by
    rw [hbs, ← rawEntries_append]
    simp
  refine ⟨htouched, ?_⟩
  rw [hsplit, directHistory_append (hclosed (bs₁ ++ [b]) ⟨bs₂, by rw [hbs]; simp⟩)]
  exact History.usage_le_append htouched _

end OneRoi

/-- An outer ROI with two iterations of an inner one. -/
def innerTwice : List ShadowEntry :=
  [(SlotWrite.allocAdd 100 8 1 none).entry, (SlotWrite.stateBegin 0).entry,
    (SlotWrite.stateBegin 1).entry, (SlotWrite.access .write 100 1).entry,
    (SlotWrite.stateEnd 1).entry, (SlotWrite.stateBegin 1).entry,
    (SlotWrite.access .read 100 2).entry, (SlotWrite.stateEnd 1).entry,
    (SlotWrite.stateEnd 0).entry]

/-- State 1 is entered inside state 0. -/
def innerTree : StateTree where
  parent s := if s = 1 then some 0 else none
  parent_lt s t h := by
    split at h
    next hs =>
      injection h with h
      rw [← h, hs]
      exact Nat.one_pos
    next => cases h

theorem nested_innerTwice :
    Nested innerTree [] innerTwice ∧ stackAfter [] innerTwice = [] := by
  refine ⟨?_, rfl⟩
  simp [innerTwice, Nested, NestedStep, stackStep, SlotWrite.entry, SlotWrite.fill,
    accessOperation, SizeState.getStatePtr, innerTree]

theorem allocatedRun_innerTwice :
    AllocatedRun innerTwice [⟨⟨100, 8, by decide, by decide⟩, 1⟩] := by
  refine AllocatedRun.of_adds [(SlotWrite.allocAdd 100 8 1 none).entry] _ ?_ ?_ ?_ ?_ ?_
  · show ∀ e ∈ innerTwice, Pushed e
    simp [innerTwice, pushed_entry]
  · simp [SlotWrite.entry, SlotWrite.fill, Operation.isAccess, Operation.access?]
  · simp [SlotWrite.entry, SlotWrite.fill, accessOperation]
  · exact .add _ rfl rfl rfl rfl (fun r hr => absurd hr List.not_mem_nil) (.nil _)
  · exact List.pairwise_singleton ..

end Carmot.Texas
