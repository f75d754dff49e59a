/-
What a run of batches records, from the accesses alone.

Three facts meet here. The first pass keeps the class of every cell's
history (CleanHistory), so when no ROI is open at the end of a batch the
second pass replaces an access made under `r` by the class of the direct
history of its cell up to that point. The table finds live ranges and
their objects point at them (Lookup). And the Final sets hold what was
recorded (Stream). `final_access_iff` puts them together: for an address
in a live range, the classes a state ends up with are those of the
batches that touch the address under a ROI below the state.

The allocations are those of a real allocator that frees nothing; every
range is added before it is accessed (`AllocatedRun`).
-/
import Carmot.Texas.Proofs.CleanHistory
import Carmot.Texas.Proofs.Cleaned
import Carmot.Texas.Proofs.Lookup

namespace Carmot.Texas

open Carmot.Lib

-- ============================================================ the allocations

/-- Cleaning does not change the allocator's run. -/
theorem AllocatorRun.cleaned {live live' : List LiveRange} {es es' : List ShadowEntry}
    (hrun : AllocatorRun live es live') (hkeep : List.Forall₂ KeepsTable es es') :
    AllocatorRun live es' live' := by
  induction hrun generalizing es' with
  | nil live => cases hkeep; exact .nil live
  | add r hop hptr hsize horigin hdisj _ ih =>
      cases hkeep with
      | cons h hrest =>
          have heq := h.eq_of_operation untouched_allocAdd hop
          subst heq
          exact .add r hop hptr hsize horigin hdisj (ih hrest)
  | free r hmem hop hptr _ ih =>
      cases hkeep with
      | cons h hrest =>
          have heq := h.eq_of_operation untouched_allocFree hop
          subst heq
          exact .free r hmem hop hptr (ih hrest)
  | other hadd hfree _ ih =>
      cases hkeep with
      | cons h hrest =>
          refine .other ?_ ?_ (ih hrest)
          · rwa [ne_eq, h.operation_iff untouched_allocAdd]
          · rwa [ne_eq, h.operation_iff untouched_allocFree]

theorem allocatorRun_executed {env : Env} {live' : List LiveRange} (bs : List Batch) :
    ∀ {rt : Runtime} {live : List LiveRange},
      (∀ b ∈ bs, b.overrun.operation = .redundant) →
      AllocatorRun live (rawEntries bs) live' → AllocatorRun live (executed env rt bs) live' := by
  induction bs with
  | nil => intro rt live _ h; exact h
  | cons b bs ih =>
      intro rt live hover h
      have happend : AllocatorRun live (b.entries ++ rawEntries bs) live' := h
      obtain ⟨mid, h₁, h₂⟩ := happend.split
      have hb := hover b (List.mem_cons_self ..)
      exact (h₁.cleaned (keepsTable_cleanedAs env _ _ _)).append
        (.other (by rw [hb]; simp) (by rw [hb]; simp)
          (ih (fun b' hb' => hover b' (List.mem_cons_of_mem _ hb')) h₂))

-- =========================================================== the recordings

/-- What the cleaned form of an access made under `r` records: its
offset, under the class the cell has in `r` when the batch ends. -/
theorem records_access_iff {env : Env} {rt : Runtime} {cl : Cleaner}
    {ptrs : StateId → StatePtrs} {e : ShadowEntry} {r : StateId}
    (hacc : e.operation.isAccess = true) (hr : cl.batchState = some r)
    (a : AllocId) (s : StateId) (c : StateClass) (off : UInt64) :
    Records env rt (reassignEntry env.options ptrs (cleanEntry env cl e).2) a s
        (.offset c off)
      ↔ rt.find e.ptr = some a ∧ s ∈ env.tree.chain r
        ∧ (ptrs r).statePtrMap e.ptr = some c ∧ env.options.tracks c = true
        ∧ off = e.ptr - (rt.allocs a).pointer := by
  obtain ⟨rw, hrw⟩ := Option.isSome_iff_exists.mp hacc
  rw [cleanEntry_access hrw hr]
  dsimp only
  -- a dropped access is still raw under cycle tracking, else redundant
  have hdrop : ¬ Records env rt
      (dropAccess env.options { e with sizeState := .statePtr r }) a s (.offset c off) := by
    unfold dropAccess
    cases htc : env.options.trackCycles with
    | false =>
        rw [if_neg (by simp)]
        exact id
    | true =>
        rw [if_pos rfl]
        intro h
        unfold Records at h
        dsimp only at h
        split at h
        next hop => rw [hop] at hacc; cases hacc
        · rw [htc, hacc] at h
          cases h.2.2.1
        · rw [htc, hacc] at h
          cases h.2.2.1
        next hop => rw [hop] at hacc; cases hacc
        · exact h
  unfold reassignEntry
  rw [if_pos hacc]
  dsimp only [SizeState.getStatePtr]
  cases hk : (ptrs r).statePtrMap e.ptr with
  | none => simp [hdrop]
  | some d =>
      dsimp only
      cases htr : env.options.tracks d with
      | false =>
          rw [if_neg (by simp)]
          refine ⟨fun h => absurd h hdrop, ?_⟩
          intro h
          obtain ⟨-, -, hcd, ht, -⟩ := h
          injection hcd with hcd
          rw [← hcd, htr] at ht
          cases ht
      | true =>
          rw [if_pos rfl]
          simp only [Records, AccessItem, Operation.isAccess, Operation.access?,
            Option.isSome_none, Bool.and_false, true_and, SizeState.getStatePtr,
            StateTree.chain?, Operation.stateAdd.injEq, Item.offset.injEq, reduceCtorEq,
            and_false, or_false, exists_eq_left', Option.some.injEq]
          constructor
          · intro h
            obtain ⟨h₁, h₂, h₃, h₄⟩ := h
            exact ⟨h₁, h₂, h₃.symm, h₃ ▸ htr, h₄⟩
          · intro h
            obtain ⟨h₁, h₂, h₃, -, h₄⟩ := h
            exact ⟨h₁, h₂, h₃.symm, h₄⟩

/-- A pushed entry that is no access records an offset only if it sets
a region, and then as it was pushed. -/
theorem region_of_records {env : Env} {rt : Runtime} {cl : Cleaner}
    {ptrs : StateId → StatePtrs} {e : ShadowEntry} (hpushed : Pushed e)
    (hacc : e.operation.isAccess = false) {a : AllocId} {s : StateId} {c : StateClass}
    {off : UInt64}
    (h : Records env rt (reassignEntry env.options ptrs (cleanEntry env cl e).2) a s
      (.offset c off)) :
    e.operation = .stateRegionSet ∧ rt.find e.ptr = some a
      ∧ (off = e.ptr - (rt.allocs a).pointer
        ∨ off = e.ptr - (rt.allocs a).pointer + e.sizeState.getSize) := by
  have hraw : ∀ d, e.operation ≠ .stateAdd d := by
    obtain ⟨slot, w, rfl⟩ := hpushed
    intro d
    cases w with
    | access rw _ _ => cases rw <;> simp [SlotWrite.fill, accessOperation]
    | _ => simp [SlotWrite.fill]
  rcases keepsTable_cleaned env ptrs cl e with heq | ⟨hraw', -⟩ | ⟨-, hclean⟩
  · rw [heq] at h
    unfold Records at h
    split at h
    next d hop => exact absurd hop (hraw d)
    next hop => rw [hop] at hacc; cases hacc
    next hop => rw [hop] at hacc; cases hacc
    next hop =>
      refine ⟨hop, h.1, ?_⟩
      rcases h.2.2 with hx | hx | hx
      · injection hx with _ hx
        exact Or.inl hx
      · injection hx with _ hx
        exact Or.inr hx
      · cases hx
    · exact h.elim
  · rw [hacc] at hraw'
    cases hraw'
  · unfold Records at h
    rw [hclean] at h
    exact h.elim

-- =================================================================== runs

/-- Batches of properly nested entries cut only where no ROI is open,
with nothing past their ends; a commit, if any, is in the last one. -/
structure ClosedBatches (env : Env) (bs : List Batch) : Prop where
  nested : Nested env.tree [] (rawEntries bs)
  closed : ∀ pre, pre <+: bs → stackAfter [] (rawEntries pre) = []
  overrun : ∀ b ∈ bs, b.overrun.operation = .redundant
  no_commit : ∀ bs₁ b bs₂, bs = bs₁ ++ b :: bs₂ →
    ∀ e ∈ rawEntries bs₁, e.operation ≠ .stateCommit

/-- Pushed entries of a real allocator that frees nothing, whose live
ranges have distinct origins and are added before they are accessed. -/
structure AllocatedRun (es : List ShadowEntry) (live : List LiveRange) : Prop where
  pushed : ∀ e ∈ es, Pushed e
  no_free : ∀ e ∈ es, e.operation ≠ .allocFree
  allocs : AllocatorRun [] es live
  origins : DistinctOrigins live
  added_first : ∀ pre e post mid, es = pre ++ e :: post → e.operation.isAccess = true →
    AllocatorRun [] pre mid → ∀ rng ∈ live, rng.Contains e.ptr → rng ∈ mid

/-- A run that adds all its ranges first. -/
theorem AllocatedRun.of_adds {live : List LiveRange} (adds rest : List ShadowEntry)
    (hpushed : ∀ e ∈ adds ++ rest, Pushed e)
    (hadds : ∀ e ∈ adds, e.operation.isAccess = false ∧ e.operation ≠ .allocFree)
    (hrest : ∀ e ∈ rest, e.operation ≠ .allocAdd ∧ e.operation ≠ .allocFree)
    (hrun : AllocatorRun [] adds live) (horigins : DistinctOrigins live) :
    AllocatedRun (adds ++ rest) live := by
  have hother : ∀ {live : List LiveRange} (es : List ShadowEntry),
      (∀ e ∈ es, e.operation ≠ .allocAdd ∧ e.operation ≠ .allocFree) →
      AllocatorRun live es live := by
    intro live es
    induction es with
    | nil => intro _; exact .nil live
    | cons e es ih =>
        intro h
        obtain ⟨h₁, h₂⟩ := h e (List.mem_cons_self ..)
        exact .other h₁ h₂ (ih fun e' he' => h e' (List.mem_cons_of_mem _ he'))
  refine ⟨hpushed, ?_, hrun.append (hother rest hrest), horigins, ?_⟩
  · intro e he
    rcases List.mem_append.mp he with he | he
    · exact (hadds e he).2
    · exact (hrest e he).2
  · intro pre e post mid hsplit hacc hmid rng hrng _
    -- the access comes after all adds, where exactly `live` is live
    rcases List.append_eq_append_iff.mp hsplit with ⟨l, hpre, hl⟩ | ⟨l, hpre, hl⟩
    · rw [hpre] at hmid
      obtain ⟨mid₁, h₁, h₂⟩ := hmid.split
      rw [h₁.det hrun] at h₂
      refine (h₂.suffix ?_).subset hrng
      intro e' he'
      exact (hrest e' (by rw [hl]; exact List.mem_append_left _ he')).2
    · cases l with
      | nil =>
          rw [List.append_nil] at hpre
          rw [← hpre] at hmid
          rw [hmid.det hrun]
          exact hrng
      | cons x l =>
          injection hl with hx _
          have hmem : e ∈ adds := by rw [hpre, hx]; simp
          rw [(hadds e hmem).1] at hacc
          cases hacc

/-- No region set starts or ends at `p`. -/
def RegionFree (es : List ShadowEntry) (p : Addr) : Prop :=
  ∀ e ∈ es, e.operation = .stateRegionSet → e.ptr ≠ p ∧ e.ptr + e.sizeState.getSize ≠ p

theorem stackAfter_append (stk : List StateId) (es fs : List ShadowEntry) :
    stackAfter stk (es ++ fs) = stackAfter (stackAfter stk es) fs := List.foldl_append

section Runs

variable {env : Env} {bs bs₁ bs₂ : List Batch} {b : Batch}

theorem ClosedBatches.rawEntries_eq (hbs : bs = bs₁ ++ b :: bs₂) :
    rawEntries bs = rawEntries bs₁ ++ (b.entries ++ rawEntries bs₂) := by
  rw [hbs, rawEntries_append]
  rfl

/-- The cleaner in the middle of a batch. -/
theorem ClosedBatches.cleanInv (hcl : ClosedBatches env bs) (hbs : bs = bs₁ ++ b :: bs₂)
    {pre post : List ShadowEntry} (hb : b.entries = pre ++ post) :
    CleanInv env.tree (firstPass env (runBatches env texasInit bs₁).cleaner pre).1
      (stackAfter [] pre) fun r p => directHistory r p (rawEntries bs₁ ++ pre) := by
  have hsub : ∀ b' ∈ bs₁, b' ∈ bs := fun b' h => by rw [hbs]; exact List.mem_append_left _ h
  have hnest := hcl.nested
  rw [ClosedBatches.rawEntries_eq hbs, hb, List.append_assoc, ← List.append_assoc,
    nested_append] at hnest
  have hinv := cleanInv_firstPass env _ (cleanInv_init env.tree) hnest.1
  rw [firstPass_append, ← cleaner_runBatches env bs₁ texasInit
    (fun b' h => hcl.overrun b' (hsub b' h)) (hcl.no_commit bs₁ b bs₂ hbs),
    stackAfter_append, hcl.closed bs₁ ⟨b :: bs₂, hbs.symm⟩] at hinv
  exact hinv

theorem ClosedBatches.nestedStep (hcl : ClosedBatches env bs) (hbs : bs = bs₁ ++ b :: bs₂)
    {pre post : List ShadowEntry} {e : ShadowEntry} (hb : b.entries = pre ++ e :: post) :
    NestedStep env.tree (stackAfter [] pre) e := by
  have hnest := hcl.nested
  rw [ClosedBatches.rawEntries_eq hbs, hb, List.append_assoc, ← List.append_assoc,
    nested_append, stackAfter_append, hcl.closed bs₁ ⟨b :: bs₂, hbs.symm⟩] at hnest
  exact hnest.2.1

/-- The class of a cell when a batch ends. -/
theorem ClosedBatches.classOf (hcl : ClosedBatches env bs) (hbs : bs = bs₁ ++ b :: bs₂)
    (r : StateId) (p : Addr) :
    ((firstPass env (runBatches env texasInit bs₁).cleaner b.entries).1.ptrs r).statePtrMap p
      = Carmot.Texas.classOf (directHistory r p (rawEntries (bs₁ ++ [b]))) := by
  have hinv := hcl.cleanInv hbs (List.append_nil b.entries).symm
  have hend : stackAfter [] b.entries = [] := by
    have h := hcl.closed (bs₁ ++ [b]) ⟨bs₂, by rw [hbs]; simp⟩
    rw [rawEntries_append, rawEntries_singleton, stackAfter_append,
      hcl.closed bs₁ ⟨b :: bs₂, hbs.symm⟩] at h
    exact h
  rw [hinv.cell_closed r (by rw [hend]; exact List.not_mem_nil) p, rawEntries_append,
    rawEntries_singleton]

variable {live : List LiveRange}

/-- The table in the middle of a batch: it knows the ranges that are
live there, and their objects are those they have in the end. -/
theorem AllocatedRun.table (hrun : AllocatedRun (rawEntries bs) live)
    (hover : ∀ b ∈ bs, b.overrun.operation = .redundant) (hbs : bs = bs₁ ++ b :: bs₂)
    {pre post : List ShadowEntry} (hb : b.entries = pre ++ post) (ptrs : StateId → StatePtrs)
    (cl : Cleaner) :
    ∃ mid, AllocatorRun [] (rawEntries bs₁ ++ pre) mid ∧ (∀ rng ∈ mid, rng ∈ live)
      ∧ Keyed (processEntries env texasInit
          (executed env texasInit bs₁ ++ cleanedAs env ptrs cl pre)) mid
      ∧ Shaped (processEntries env texasInit
          (executed env texasInit bs₁ ++ cleanedAs env ptrs cl pre)) mid := by
  have hsub : ∀ b' ∈ bs₁, b' ∈ bs := fun b' h => by rw [hbs]; exact List.mem_append_left _ h
  have hall := hrun.allocs
  have hnofree := hrun.no_free
  rw [ClosedBatches.rawEntries_eq hbs, hb, List.append_assoc, ← List.append_assoc]
    at hall hnofree
  obtain ⟨mid, hpre, hpost⟩ := hall.split
  have hsuffix := hpost.suffix fun e he => hnofree e (List.mem_append_right _ he)
  obtain ⟨mid₁, h₁, h₂⟩ := hpre.split
  have hexec : AllocatorRun [] (executed env texasInit bs₁ ++ cleanedAs env ptrs cl pre) mid :=
    (allocatorRun_executed bs₁ (fun b' h => hover b' (hsub b' h)) h₁).append
      (h₂.cleaned (keepsTable_cleanedAs env ptrs pre cl))
  have hnoexec : ∀ e ∈ executed env texasInit bs₁ ++ cleanedAs env ptrs cl pre,
      e.operation ≠ .allocFree := by
    intro e he
    rcases List.mem_append.mp he with he | he
    · refine not_mem_executed untouched_allocFree bs₁ (fun b' h => hover b' (hsub b' h)) ?_ e he
      intro e he
      exact hnofree e (List.mem_append_left _ (List.mem_append_left _ he))
    · refine not_mem_cleanedAs untouched_allocFree ?_ e he
      intro e he
      exact hnofree e (List.mem_append_left _ (List.mem_append_right _ he))
  have htable := @table_run env _ _ hexec hnoexec (hrun.origins.of_suffix hsuffix)
  exact ⟨mid, hpre, fun rng h => hsuffix.subset h, htable.1, htable.2⟩

/-- Without frees nothing is erased: an item is Final when some executed
entry records it. -/
theorem AllocatedRun.final_iff (hrun : AllocatedRun (rawEntries bs) live)
    (hover : ∀ b ∈ bs, b.overrun.operation = .redundant) {stateMap : List StateId}
    {s : StateId} (hs : s ∈ stateMap) (a : AllocId) (x : Item) :
    Final (reportStatistics env stateMap (runBatches env texasInit bs)) a s x ↔
      ∃ pre e post, executed env texasInit bs = pre ++ e :: post
        ∧ Records env (processEntries env texasInit pre) e a s x := by
  have hno : ∀ e ∈ executed env texasInit bs, e.operation ≠ .allocFree :=
    not_mem_executed untouched_allocFree bs hover hrun.no_free
  rw [final_runBatches env stateMap bs hs]
  constructor
  · intro h
    obtain ⟨pre, e, post, hsplit, hrec, -⟩ := h
    exact ⟨pre, e, post, hsplit, hrec⟩
  · intro h
    obtain ⟨pre, e, post, hsplit, hrec⟩ := h
    refine ⟨pre, e, post, hsplit, hrec, ?_⟩
    intro h
    obtain ⟨mid, f, rest, hpost, -, her⟩ := h
    exact hno f (by rw [hsplit, hpost]; simp) her.1

/-- The table when all batches are done. -/
theorem AllocatedRun.keyed (env : Env) (hrun : AllocatedRun (rawEntries bs) live)
    (hover : ∀ b ∈ bs, b.overrun.operation = .redundant) :
    Keyed (runBatches env texasInit bs) live := by
  have hexec : AllocatorRun [] (executed env texasInit bs) live :=
    allocatorRun_executed bs hover hrun.allocs
  have h : Keyed (runBatches env texasInit bs).forget live := by
    rw [runBatches_forget, forget_init]
    exact keyed_run hexec keyed_init
  exact ⟨⟨h.inv.maskFree, h.inv.pending_mem, h.inv.objects_lt, h.inv.origins_lt⟩, h.keys,
    h.known, h.origins_inj, h.origins_pos, h.disjoint⟩

section Object

variable {rng : LiveRange} {a : AllocId} {p : Addr} {s : StateId} {c : StateClass}
  {pre' rest' : List ShadowEntry}

/-- An origin's object at some point of the stream is its object in the
end. -/
theorem origin_final (hsplit : executed env texasInit bs = pre' ++ rest') {o : UInt64}
    (ho : (processEntries env texasInit pre').originToAllocMap o = some a) :
    (runBatches env texasInit bs).originToAllocMap o = some a := by
  have hforget := congrArg Runtime.originToAllocMap (runBatches_forget env bs texasInit)
  have heq : (runBatches env texasInit bs).originToAllocMap
      = (processEntries env texasInit (executed env texasInit bs)).originToAllocMap := hforget
  rw [heq, hsplit, processEntries_append]
  exact origin_mono_run env rest' (tableInv_run env pre' tableInv_init) ho

/-- A range that has object `a` at some point of the stream is the one
that has it in the end. -/
theorem AllocatedRun.range_eq (hrun : AllocatedRun (rawEntries bs) live)
    (hover : ∀ b ∈ bs, b.overrun.operation = .redundant) (hrng : rng ∈ live)
    (ha : (runBatches env texasInit bs).originToAllocMap rng.origin = some a)
    (hsplit : executed env texasInit bs = pre' ++ rest') {rng' : LiveRange}
    (hmem : rng' ∈ live)
    (ho : (processEntries env texasInit pre').originToAllocMap rng'.origin = some a) :
    rng' = rng := by
  exact hrun.origins.eq hmem hrng
    ((hrun.keyed env hover).origins_inj _ _ a (origin_final hsplit ho) ha)

/-- An access to an address of the range, under a ROI below `s`, records
the class its cell has when the batch ends. -/
theorem recorded_of_touches (hcl : ClosedBatches env bs)
    (hrun : AllocatedRun (rawEntries bs) live) (hrng : rng ∈ live) (hp : rng.Contains p)
    (ha : (runBatches env texasInit bs).originToAllocMap rng.origin = some a)
    (hbs : bs = bs₁ ++ b :: bs₂) {r : StateId} (htouch : Touches r p [] b.entries)
    (hchain : s ∈ env.tree.chain r)
    (hclass : Carmot.Texas.classOf (directHistory r p (rawEntries (bs₁ ++ [b]))) = some c)
    (htracks : env.options.tracks c = true) :
    ∃ pre e post, executed env texasInit bs = pre ++ e :: post
      ∧ Records env (processEntries env texasInit pre) e a s (.offset c (p - rng.base)) := by
  obtain ⟨pre, e, post, hb, hacc, rfl, hhead⟩ := htouch
  obtain ⟨post', hexec⟩ := @executed_of_split env texasInit bs₁ bs₂ b pre post e hb
  rw [← hbs] at hexec
  refine ⟨_, _, post', hexec, ?_⟩
  obtain ⟨mid, hmid, hsub, hkeyed, hshaped⟩ := @AllocatedRun.table env bs bs₁ bs₂ b live
    hrun hcl.overrun hbs pre (e :: post) hb
    (firstPass env (runBatches env texasInit bs₁).cleaner b.entries).1.ptrs
    (runBatches env texasInit bs₁).cleaner
  have hin : rng ∈ mid := by
    refine hrun.added_first _ e (post ++ rawEntries bs₂) mid ?_ hacc hmid rng hrng hp
    rw [ClosedBatches.rawEntries_eq hbs, hb]
    simp
  obtain ⟨a₀, h₀⟩ := hkeyed.known rng hin
  have haa : a₀ = a := by
    have h := origin_final hexec h₀
    rw [ha] at h
    injection h with h
    exact h.symm
  subst haa
  have hbatch := (hcl.cleanInv hbs hb).batchState_eq
  rw [hhead] at hbatch
  rw [records_access_iff hacc hbatch]
  refine ⟨hkeyed.find_eq hshaped hin hp h₀, hchain, ?_, htracks, ?_⟩
  · rw [hcl.classOf hbs]
    exact hclass
  · rw [(hshaped rng hin a₀ h₀).1]

/-- Nothing else records an offset of the range where no region ends. -/
theorem touches_of_recorded (hcl : ClosedBatches env bs)
    (hrun : AllocatedRun (rawEntries bs) live) (hrng : rng ∈ live)
    (hregion : RegionFree (rawEntries bs) p)
    (ha : (runBatches env texasInit bs).originToAllocMap rng.origin = some a) (hpos : a ≠ 0)
    {e' : ShadowEntry} (hexec : executed env texasInit bs = pre' ++ e' :: rest')
    (hrec : Records env (processEntries env texasInit pre') e' a s
      (.offset c (p - rng.base))) :
    ∃ bs₁ b bs₂ r, bs = bs₁ ++ b :: bs₂ ∧ Touches r p [] b.entries ∧ s ∈ env.tree.chain r
      ∧ Carmot.Texas.classOf (directHistory r p (rawEntries (bs₁ ++ [b]))) = some c
      ∧ env.options.tracks c = true := by
  obtain ⟨bs₁, b, bs₂, hbs, hcase⟩ := executed_split bs hexec
  have hbmem : b ∈ bs := by rw [hbs]; simp
  rcases hcase with h | ⟨pre, e, post, hb, hpre', he'⟩
  · -- the slot past the end
    unfold Records at hrec
    rw [h, hcl.overrun b hbmem] at hrec
    exact hrec.elim
  · obtain ⟨mid, hmid, hsub, hkeyed, hshaped⟩ := @AllocatedRun.table env bs bs₁ bs₂ b live
      hrun hcl.overrun hbs pre (e :: post) hb
      (firstPass env (runBatches env texasInit bs₁).cleaner b.entries).1.ptrs
      (runBatches env texasInit bs₁).cleaner
    rw [← hpre'] at hkeyed hshaped
    have hemem : e ∈ rawEntries bs := List.mem_flatMap.mpr ⟨b, hbmem, by rw [hb]; simp⟩
    -- what is found is the range itself, so the offset determines the address
    have hpointer : (processEntries env texasInit pre').find e.ptr = some a →
        ((processEntries env texasInit pre').allocs a).pointer = rng.base := by
      intro hf
      obtain ⟨rng', hrng', -, ho⟩ := hkeyed.contains_of_find hshaped (Or.inr hpos) hf
      have heq := hrun.range_eq hcl.overrun hrng ha hexec (hsub rng' hrng') ho
      rw [(hshaped rng' hrng' a ho).1, heq]
    subst he'
    cases hacc : e.operation.isAccess with
    | true =>
        have hinv := hcl.cleanInv hbs hb
        have hne : stackAfter [] pre ≠ [] := (hcl.nestedStep hbs hb).ne_nil hacc
        obtain ⟨r, rest, hstk⟩ := List.exists_cons_of_ne_nil hne
        have hhead : (stackAfter [] pre).head? = some r := by rw [hstk]; rfl
        rw [records_access_iff hacc (hinv.batchState_eq.trans hhead)] at hrec
        obtain ⟨hf, hchain, hclass, htracks, hoff⟩ := hrec
        rw [hpointer hf] at hoff
        have hptr : e.ptr = p := (UInt64.sub_left_inj _).mp hoff.symm
        rw [hcl.classOf hbs, hptr] at hclass
        exact ⟨bs₁, b, bs₂, r, hbs, ⟨pre, e, post, hb, hacc, hptr, hhead⟩, hchain, hclass,
          htracks⟩
    | false =>
        obtain ⟨hop, hf, hoff⟩ := region_of_records (hrun.pushed e hemem) hacc hrec
        obtain ⟨h₁, h₂⟩ := hregion e hemem hop
        rw [hpointer hf] at hoff
        rcases hoff with hoff | hoff
        · exact absurd ((UInt64.sub_left_inj _).mp hoff).symm h₁
        · have hend : p = e.ptr + e.sizeState.getSize := by
            have h : p - rng.base + rng.base
                = e.ptr - rng.base + e.sizeState.getSize + rng.base := by rw [← hoff]
            rw [UInt64.sub_add_cancel, UInt64.add_assoc, UInt64.add_comm e.sizeState.getSize,
              ← UInt64.add_assoc, UInt64.sub_add_cancel] at h
            exact h
          exact absurd hend.symm h₂

end Object

/-- The classes a state ends up with for an address in a live range: those
the direct histories have at the ends of the batches that touch the
address under the state or a ROI below it. -/
theorem final_access_iff {stateMap : List StateId} (hcl : ClosedBatches env bs)
    (hrun : AllocatedRun (rawEntries bs) live) {s : StateId} (hs : s ∈ stateMap)
    {rng : LiveRange} (hrng : rng ∈ live) {p : Addr} (hp : rng.Contains p)
    (hregion : RegionFree (rawEntries bs) p) {a : AllocId}
    (ha : (runBatches env texasInit bs).originToAllocMap rng.origin = some a)
    (c : StateClass) :
    Final (reportStatistics env stateMap (runBatches env texasInit bs)) a s
        (.offset c (p - rng.base))
      ↔ ∃ bs₁ b bs₂ r, bs = bs₁ ++ b :: bs₂ ∧ Touches r p [] b.entries
        ∧ s ∈ env.tree.chain r
        ∧ Carmot.Texas.classOf (directHistory r p (rawEntries (bs₁ ++ [b]))) = some c
        ∧ env.options.tracks c = true := by
  rw [hrun.final_iff hcl.overrun hs]
  constructor
  · intro h
    obtain ⟨pre, e, post, hexec, hrec⟩ := h
    have hpos : a ≠ 0 := (hrun.keyed env hcl.overrun).origins_pos rng.origin a ha
    exact touches_of_recorded hcl hrun hrng hregion ha hpos hexec hrec
  · intro h
    obtain ⟨bs₁, b, bs₂, r, hbs, htouch, hchain, hclass, htracks⟩ := h
    exact recorded_of_touches hcl hrun hrng hp ha hbs htouch hchain hclass htracks

end Runs

end Carmot.Texas
