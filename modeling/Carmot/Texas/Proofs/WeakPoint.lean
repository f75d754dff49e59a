/-
The weak point of a cycle is the member left alone for longest.

Under cycle tracking an access stamps the object it finds with
`freshnessSetter`, once for every state it is recorded for, and the
weak point of a cycle is a member with the lowest stamp. Stamps only
grow, so as long as the counter does not run over (`stampsOf` counts the
stamps of an entry) their order is the order of the last touches: any
final stretch of the run that touches the weak point touches every other
member of the cycle as well (`weakPoint_untouched_longest`). Reusing an
object for a new block of its origin keeps its stamp, freeing the block
too.
-/
import Carmot.Texas.Proofs.Connections
import Carmot.Texas.Proofs.Records

namespace Carmot.Texas

-- ================================================================ touches

/-- How often the entry stamps the object it finds. -/
def stampsOf (env : Env) (e : ShadowEntry) : Nat :=
  if env.options.trackCycles then
    let states := env.tree.chain? e.sizeState.getStatePtr
    match e.operation with
    | .stateAddRead | .stateAddWrite => min 1 states.length
    | .stateAdd _ => states.length
    | _ => 0
  else 0

/-- How many stamps a run gives. -/
def stampsIn (env : Env) : List (ShadowEntry × Memory) → Nat
  | [] => 0
  | (e, _) :: steps => stampsOf env e + stampsIn env steps

/-- The object the entry stamps. -/
def touched (env : Env) (rt : Runtime) (e : ShadowEntry) : Option AllocId :=
  if stampsOf env e = 0 then none else rt.find e.ptr

/-- The objects stamped in a run, touch by touch. -/
def touchLog (env : Env) : Runtime → List (ShadowEntry × Memory) → List AllocId
  | _, [] => []
  | rt, (e, mem) :: steps =>
      (touched env rt e).toList ++ touchLog env (processEntry { env with mem := mem } rt e) steps

-- ========================================================= what is stamped

/-- No stamp was given. -/
structure SameStamps (rt rt' : Runtime) : Prop where
  setter : rt'.freshnessSetter = rt.freshnessSetter
  freshness : ∀ a, (rt'.allocs a).freshness = (rt.allocs a).freshness

namespace SameStamps

variable {rt rt' rt'' : Runtime}

theorem refl (rt : Runtime) : SameStamps rt rt := ⟨rfl, fun _ => rfl⟩

theorem trans (h : SameStamps rt rt') (h' : SameStamps rt' rt'') : SameStamps rt rt'' :=
  ⟨h'.setter.trans h.setter, fun a => (h'.freshness a).trans (h.freshness a)⟩

/-- An object replaced by one with the same stamp. -/
theorem setAlloc (rt : Runtime) (a : AllocId) {alloc : Allocation}
    (h : alloc.freshness = (rt.allocs a).freshness) : SameStamps rt (rt.setAlloc a alloc) := by
  refine ⟨rfl, ?_⟩
  intro b
  show (Function.update rt.allocs a alloc b).freshness = _
  by_cases hb : b = a
  · subst hb
    rw [Function.update_self]
    exact h
  · rw [Function.update_of_ne hb]

theorem commitStateInfo (tree : StateTree) (skip : Option StateId) (rt : Runtime) (a : AllocId) :
    SameStamps rt (Carmot.Texas.commitStateInfo tree skip rt a) := by
  refine ⟨rfl, ?_⟩
  intro b
  unfold Carmot.Texas.commitStateInfo
  by_cases hb : b = a
  · subst hb
    dsimp only
    rw [Function.update_self]
  · dsimp only
    rw [Function.update_of_ne hb]

theorem commitAll (tree : StateTree) (rt : Runtime) :
    SameStamps rt (commitStateInfoForAllocations tree rt) := by
  have hfold : ∀ (as : List AllocId) (rt : Runtime),
      SameStamps rt (as.foldl (Carmot.Texas.commitStateInfo tree none) rt) := by
    intro as
    induction as with
    | nil => intro rt; exact refl rt
    | cons a as ih => intro rt; exact (commitStateInfo tree none rt a).trans (ih _)
  exact hfold _ rt

theorem freeAlloc (env : Env) (rt : Runtime) (e : ShadowEntry) :
    SameStamps rt (processFreeAllocation env rt e) := by
  unfold processFreeAllocation
  cases rt.find e.ptr with
  | none => exact refl rt
  | some a =>
      have h := commitStateInfo env.tree e.affiliatedState rt a
      exact ⟨h.setter, h.freshness⟩

theorem addEscape (env : Env) (rt : Runtime) (e : ShadowEntry) :
    SameStamps rt (processAddEscape env rt e) := by
  unfold processAddEscape
  split
  · exact refl rt
  · split
    · exact refl rt
    · exact setAlloc rt _ rfl

theorem regionSet (e : ShadowEntry) (chain : List StateId) :
    ∀ rt, SameStamps rt (processStateRegionSet e rt chain) := by
  induction chain with
  | nil => intro rt; exact refl rt
  | cons s parents ih =>
      intro rt
      unfold processStateRegionSet
      cases rt.find e.ptr with
      | none => exact refl rt
      | some a =>
          have hone : SameStamps rt (recordRegion e a s rt) := setAlloc rt a rfl
          exact hone.trans (ih (recordRegion e a s rt))

/-- A new object has the stamp an unused number has; an old one keeps
its own. -/
theorem addAlloc (env : Env) (rt : Runtime) (e : ShadowEntry)
    (hunborn : ∀ a, rt.numAllocs ≤ a → (rt.allocs a).freshness = 0) :
    SameStamps rt (processAddAlloc env rt e) := by
  have hobj : SameStamps rt (originObject rt e).1 := by
    unfold originObject
    cases rt.originToAllocMap e.information with
    | none =>
        refine ⟨rfl, ?_⟩
        intro b
        by_cases hb : b = rt.numAllocs
        · subst hb
          dsimp only
          rw [Function.update_self, hunborn _ (Nat.le_refl _)]
          rfl
        · dsimp only
          rw [Function.update_of_ne hb]
    | some a => exact setAlloc rt a rfl
  generalize hmade : originObject rt e = made at hobj
  have haff : SameStamps made.1 (made.1.setAlloc made.2
      { made.1.allocs made.2 with affiliatedState := e.affiliatedState }) := setAlloc _ _ rfl
  unfold processAddAlloc
  rw [hmade]
  exact ⟨haff.setter.trans hobj.setter, fun b => (haff.freshness b).trans (hobj.freshness b)⟩

end SameStamps

/-- Object `a` was stamped `n` times in a row. -/
structure StampedBy (a : AllocId) (n : Nat) (rt rt' : Runtime) : Prop where
  setter : rt'.freshnessSetter.toNat = rt.freshnessSetter.toNat + n
  others : ∀ b, b ≠ a → (rt'.allocs b).freshness = (rt.allocs b).freshness
  last : 0 < n → (rt'.allocs a).freshness.toNat + 1 = rt.freshnessSetter.toNat + n
  none : n = 0 → (rt'.allocs a).freshness = (rt.allocs a).freshness

namespace StampedBy

variable {a : AllocId} {n k : Nat} {rt rt' rt'' : Runtime}

theorem of_same (h : SameStamps rt rt') : StampedBy a 0 rt rt' where
  setter := congrArg UInt64.toNat h.setter
  others b _ := h.freshness b
  last h0 := absurd h0 (Nat.lt_irrefl 0)
  none _ := h.freshness a

theorem trans (h : StampedBy a n rt rt') (h' : StampedBy a k rt' rt'') :
    StampedBy a (n + k) rt rt'' := by
  refine ⟨?_, fun b hb => (h'.others b hb).trans (h.others b hb), ?_, ?_⟩
  · rw [h'.setter, h.setter, Nat.add_assoc]
  · intro hpos
    by_cases hk : k = 0
    · rw [h'.none hk, h.last (by omega), hk]
      rfl
    · rw [h'.last (by omega), h.setter, Nat.add_assoc]
  · intro hzero
    rw [h'.none (by omega), h.none (by omega)]

theorem stampFreshness (rt : Runtime) (a : AllocId)
    (hroom : rt.freshnessSetter.toNat + 1 < 2 ^ 64) :
    StampedBy a 1 rt (Carmot.Texas.stampFreshness a rt) := by
  refine ⟨?_, ?_, ?_, fun h => absurd h Nat.one_ne_zero⟩
  · show (rt.freshnessSetter + 1).toNat = _
    rw [UInt64.toNat_add]
    exact Nat.mod_eq_of_lt hroom
  · intro b hb
    show (Function.update rt.allocs a _ b).freshness = _
    rw [Function.update_of_ne hb]
  · intro _
    show (Function.update rt.allocs a _ a).freshness.toNat + 1 = _
    rw [Function.update_self]

theorem same (h : StampedBy a 0 rt rt') : SameStamps rt rt' := by
  refine ⟨UInt64.toNat_inj.mp h.setter, ?_⟩
  intro b
  by_cases hb : b = a
  · rw [hb]
    exact h.none rfl
  · exact h.others b hb

end StampedBy

/-- Without cycle tracking nothing is stamped. -/
theorem sameStamps_processAddToState {env : Env} {e : ShadowEntry}
    (hcycles : env.options.trackCycles = false) (chain : List StateId) :
    ∀ rt, SameStamps rt (processAddToState env e rt chain) := by
  induction chain with
  | nil => intro rt; exact SameStamps.refl rt
  | cons s parents ih =>
      intro rt
      unfold processAddToState
      rw [hcycles, Bool.false_and]
      cases rt.find e.ptr with
      | none => exact SameStamps.refl rt
      | some a =>
          have hone : SameStamps rt (recordAccess e a s rt) := SameStamps.setAlloc rt a rfl
          exact hone.trans (ih _)

/-- An address that is not found stamps nothing. -/
theorem processAddToState_of_find_none {env : Env} {e : ShadowEntry} {rt : Runtime}
    (hfind : rt.find e.ptr = none) (chain : List StateId) :
    processAddToState env e rt chain = rt := by
  cases chain with
  | nil => rfl
  | cons s parents =>
      unfold processAddToState
      rw [hfind]

/-- An access stamps the object it finds once for every state it gets
to. -/
theorem stampedBy_processAddToState {env : Env} {e : ShadowEntry} {a : AllocId}
    (hcycles : env.options.trackCycles = true) (chain : List StateId) :
    ∀ {rt : Runtime}, rt.find e.ptr = some a →
      rt.freshnessSetter.toNat
        + (if e.operation.isAccess then min 1 chain.length else chain.length) < 2 ^ 64 →
      StampedBy a (if e.operation.isAccess then min 1 chain.length else chain.length) rt
        (processAddToState env e rt chain) := by
  induction chain with
  | nil =>
      intro rt _ _
      have hzero : (if e.operation.isAccess then min 1 ([] : List StateId).length
          else ([] : List StateId).length) = 0 := by
        split
        · rfl
        · rfl
      rw [hzero]
      exact .of_same (SameStamps.refl rt)
  | cons s parents ih =>
      intro rt hfind hroom
      have hone : rt.freshnessSetter.toNat + 1 < 2 ^ 64 := by
        rw [List.length_cons] at hroom
        split at hroom
        · omega
        · omega
      have hstamp := StampedBy.stampFreshness rt a hone
      unfold processAddToState
      rw [hfind]
      dsimp only
      rw [hcycles, if_pos rfl, Bool.true_and]
      cases hacc : e.operation.isAccess with
      | true =>
          rw [if_pos rfl, if_pos rfl, List.length_cons]
          have hmin : min 1 (parents.length + 1) = 1 := by omega
          rw [hmin]
          exact hstamp
      | false =>
          rw [if_neg Bool.false_ne_true, if_neg Bool.false_ne_true, List.length_cons,
            Nat.add_comm parents.length 1]
          simp only [hacc, if_neg Bool.false_ne_true, List.length_cons] at ih hroom
          have hrecord : SameStamps (stampFreshness a rt)
              (recordAccess e a s (stampFreshness a rt)) := SameStamps.setAlloc _ a rfl
          have hsame : SameTable rt (recordAccess e a s (stampFreshness a rt)) :=
            (sameTable_stampFreshness a).trans (sameTable_recordAccess e a s)
          have hnext : (recordAccess e a s (stampFreshness a rt)).freshnessSetter.toNat
              = rt.freshnessSetter.toNat + 1 := hstamp.setter
          have hrest := ih ((hsame.find e.ptr).trans hfind) (by rw [hnext]; omega)
          have hrec := (hstamp.trans (.of_same hrecord)).trans hrest
          exact hrec

-- ================================================================== entries

section Entries

variable {env : Env} {rt : Runtime} {e : ShadowEntry}

theorem stampsOf_access (hkind : e.operation.isAccess = true ∨ ∃ c, e.operation = .stateAdd c) :
    stampsOf env e = if env.options.trackCycles then
        (if e.operation.isAccess then
          min 1 (env.tree.chain? e.sizeState.getStatePtr).length
        else (env.tree.chain? e.sizeState.getStatePtr).length)
      else 0 := by
  unfold stampsOf
  rcases Operation.access_kinds hkind with h | h | ⟨c, h⟩
  · rw [h]
    rfl
  · rw [h]
    rfl
  · rw [h]
    rfl

theorem stampsOf_other (hkind : ¬ (e.operation.isAccess = true ∨ ∃ c, e.operation = .stateAdd c)) :
    stampsOf env e = 0 := by
  unfold stampsOf
  split
  · dsimp only
    split
    next hop => exact absurd (Or.inl (by rw [hop]; rfl)) hkind
    next hop => exact absurd (Or.inl (by rw [hop]; rfl)) hkind
    next c hop => exact absurd (Or.inr ⟨c, hop⟩) hkind
    · rfl
  · rfl

/-- Entries that are no accesses stamp nothing. -/
theorem sameStamps_other (hunborn : ∀ a, rt.numAllocs ≤ a → (rt.allocs a).freshness = 0)
    (hkind : ¬ (e.operation.isAccess = true ∨ ∃ c, e.operation = .stateAdd c)) :
    SameStamps rt (processEntry env rt e) := by
  unfold processEntry
  split
  · exact SameStamps.addAlloc env rt e hunborn
  · exact SameStamps.freeAlloc env rt e
  · exact SameStamps.addEscape env rt e
  next hop => exact absurd (Or.inl (by rw [hop]; rfl)) hkind
  next hop => exact absurd (Or.inl (by rw [hop]; rfl)) hkind
  next c hop => exact absurd (Or.inr ⟨c, hop⟩) hkind
  · cases e.sizeState.getStatePtr with
    | none => exact SameStamps.commitAll env.tree rt
    | some s =>
        have h := SameStamps.commitAll env.tree rt
        exact ⟨h.setter, h.freshness⟩
  · exact SameStamps.regionSet e _ rt
  · exact SameStamps.refl rt

/-- What an entry does to the stamps. -/
theorem stampedBy_processEntry (hunborn : ∀ a, rt.numAllocs ≤ a → (rt.allocs a).freshness = 0)
    (hroom : rt.freshnessSetter.toNat + stampsOf env e < 2 ^ 64) :
    match touched env rt e with
    | none => SameStamps rt (processEntry env rt e)
    | some a => 0 < stampsOf env e ∧ StampedBy a (stampsOf env e) rt (processEntry env rt e) := by
  by_cases hkind : e.operation.isAccess = true ∨ ∃ c, e.operation = .stateAdd c
  · rw [processEntry_access rt hkind]
    cases hcycles : env.options.trackCycles with
    | false =>
        have hzero : stampsOf env e = 0 := by
          rw [stampsOf_access hkind, hcycles]
          rfl
        unfold touched
        rw [if_pos hzero]
        exact sameStamps_processAddToState hcycles _ rt
    | true =>
        have hcount := @stampsOf_access env e hkind
        rw [hcycles, if_pos rfl] at hcount
        cases hfind : rt.find e.ptr with
        | none =>
            rw [processAddToState_of_find_none hfind]
            unfold touched
            rw [hfind, ite_self]
            exact SameStamps.refl rt
        | some a =>
            rw [hcount] at hroom
            have hstamped := stampedBy_processAddToState hcycles _ hfind hroom
            rw [← hcount] at hstamped
            unfold touched
            by_cases hzero : stampsOf env e = 0
            · rw [if_pos hzero]
              rw [hzero] at hstamped
              exact hstamped.same
            · rw [if_neg hzero, hfind]
              exact ⟨Nat.pos_of_ne_zero hzero, hstamped⟩
  · have hsame : SameStamps rt (processEntry env rt e) := sameStamps_other hunborn hkind
    unfold touched
    rw [if_pos (stampsOf_other hkind)]
    exact hsame

end Entries

-- ==================================================================== runs

/-- The stamps after a run with the given touches and at most `n`
stamps: they are in the order of the last touches. -/
structure InOrder (rt : Runtime) (log : List AllocId) (n : Nat) : Prop where
  inv : RecordInv rt
  unborn : ∀ a, rt.numAllocs ≤ a → (rt.allocs a).freshness = 0
  setter : rt.freshnessSetter.toNat ≤ n + 1
  lt : ∀ a, (rt.allocs a).freshness.toNat < rt.freshnessSetter.toNat
  order : ∀ pre post a b, log = pre ++ post → a ∉ post → b ∈ post →
    (rt.allocs a).freshness.toNat < (rt.allocs b).freshness.toNat

section Runs

variable {env : Env} {rt rt' : Runtime} {log : List AllocId} {n k : Nat} {a : AllocId}

theorem inOrder_init : InOrder texasInit [] 0 := by
  have hzero : ∀ a, (texasInit.allocs a).freshness = 0 := by
    intro a
    show (Function.update (fun _ => Allocation.new 0 0 0) 0 (Allocation.new maxAddr 0 0) a).freshness
      = 0
    by_cases ha : a = 0
    · rw [ha, Function.update_self]
      rfl
    · rw [Function.update_of_ne ha]
      rfl
  refine ⟨recordInv_init, fun a _ => hzero a, Nat.le_refl _, ?_, ?_⟩
  · intro a
    rw [hzero]
    exact Nat.one_pos
  · intro pre post a b hlog _ hb
    rw [(List.append_eq_nil_iff.mp hlog.symm).2] at hb
    cases hb

/-- An entry that touches nothing. -/
theorem InOrder.same (h : InOrder rt log n) (hinv : RecordInv rt')
    (hnum : rt.numAllocs ≤ rt'.numAllocs) (hsame : SameStamps rt rt') (hle : n ≤ k) :
    InOrder rt' log k := by
  refine ⟨hinv, ?_, ?_, ?_, ?_⟩
  · intro a ha
    rw [hsame.freshness]
    exact h.unborn a (Nat.le_trans hnum ha)
  · rw [hsame.setter]
    have hset := h.setter
    omega
  · intro a
    rw [hsame.freshness, hsame.setter]
    exact h.lt a
  · intro pre post a b hlog ha hb
    rw [hsame.freshness, hsame.freshness]
    exact h.order pre post a b hlog ha hb

/-- A touch: the new stamp is above all others. -/
theorem InOrder.touch (h : InOrder rt log n) (hinv : RecordInv rt')
    (hnum : rt.numAllocs ≤ rt'.numAllocs) (ha : a < rt.numAllocs) (hpos : 0 < k)
    (hstamped : StampedBy a k rt rt') : InOrder rt' (log ++ [a]) (n + k) := by
  have hlast := hstamped.last hpos
  have hset := hstamped.setter
  have habove : ∀ b, b ≠ a →
      (rt'.allocs b).freshness.toNat < (rt'.allocs a).freshness.toNat := by
    intro b hb
    rw [hstamped.others b hb]
    have hlt := h.lt b
    omega
  refine ⟨hinv, ?_, ?_, ?_, ?_⟩
  · intro b hb
    have hne : b ≠ a := Nat.ne_of_gt (Nat.lt_of_lt_of_le ha (Nat.le_trans hnum hb))
    rw [hstamped.others b hne]
    exact h.unborn b (Nat.le_trans hnum hb)
  · have hold := h.setter
    omega
  · intro b
    by_cases hb : b = a
    · rw [hb]
      omega
    · have hlt := habove b hb
      omega
  · intro pre post b c hlog hb hc
    rcases List.eq_nil_or_concat post with rfl | ⟨post', d, rfl⟩
    · cases hc
    · rw [List.concat_eq_append, ← List.append_assoc] at hlog
      obtain ⟨hlog', hd⟩ := List.append_inj' hlog rfl
      injection hd with hd
      subst hd
      rw [List.concat_eq_append, List.mem_append, List.mem_singleton, not_or] at hb
      by_cases hca : c = a
      · rw [hca]
        exact habove b hb.2
      · rw [List.concat_eq_append, List.mem_append, List.mem_singleton] at hc
        rw [hstamped.others b hb.2, hstamped.others c hca]
        exact h.order pre post' b c hlog' hb.1 (hc.resolve_right hca)

/-- One entry. -/
theorem InOrder.step (h : InOrder rt log n) (e : ShadowEntry) (hroom : n + stampsOf env e + 1 < 2 ^ 64) :
    InOrder (processEntry env rt e) (log ++ (touched env rt e).toList) (n + stampsOf env e) := by
  have hset := h.setter
  have hstep := @stampedBy_processEntry env rt e h.unborn (by omega)
  have hnum := (processEntry_records env h.inv e).num_le
  have hinv : RecordInv (processEntry env rt e) := h.inv.step e
  cases ht : touched env rt e with
  | none =>
      rw [ht] at hstep
      rw [Option.toList_none, List.append_nil]
      exact h.same hinv hnum hstep (Nat.le_add_right _ _)
  | some a =>
      rw [ht] at hstep
      have hfind : rt.find e.ptr = some a := by
        unfold touched at ht
        split at ht
        · cases ht
        · exact ht
      have hlt := h.inv.objects_lt a (h.inv.mem_of_find hfind)
      exact h.touch hinv hnum hlt hstep.1 hstep.2

/-- A whole run. -/
theorem InOrder.run (steps : List (ShadowEntry × Memory)) :
    ∀ {rt : Runtime} {log : List AllocId} {n : Nat}, InOrder rt log n →
      n + stampsIn env steps + 1 < 2 ^ 64 →
      InOrder (processSteps env rt steps) (log ++ touchLog env rt steps)
        (n + stampsIn env steps) := by
  induction steps with
  | nil =>
      intro rt log n h _
      rw [touchLog, List.append_nil]
      exact h
  | cons step steps ih =>
      intro rt log n h hroom
      obtain ⟨e, mem⟩ := step
      rw [stampsIn] at hroom ⊢
      have hone : InOrder (processEntry { env with mem := mem } rt e)
          (log ++ (touched env rt e).toList) (n + stampsOf env e) :=
        InOrder.step h e (by show n + stampsOf env e + 1 < 2 ^ 64; omega)
      have hrest := ih hone (by omega)
      rw [List.append_assoc, Nat.add_assoc] at hrest
      exact hrest

end Runs

/-- A cycle with an object that was not stamped last of all has a weak
point. -/
theorem exists_oldest {rt : Runtime} {cycle : List AllocId}
    (h : ∃ b ∈ cycle, (rt.allocs b).freshness < 0xffffffffffffffff) :
    ∃ a, oldest rt cycle = some a := by
  -- while none is found the bound is where it started
  have hloop : ∀ (seen : List AllocId),
      let found := seen.foldl (fun found a =>
        if (rt.allocs a).freshness < found.2 then (some a, (rt.allocs a).freshness) else found)
        ((none, 0xffffffffffffffff) : Option AllocId × UInt64)
      OldestOf rt seen found ∧ (found.1 = none → found.2 = 0xffffffffffffffff) := by
    intro seen
    induction seen using List.reverseRecOn with
    | nil =>
        refine ⟨⟨fun b hb => absurd hb List.not_mem_nil, fun a ha => ?_⟩, fun _ => rfl⟩
        cases ha
    | append_singleton seen c ih =>
        rw [List.foldl_append]
        refine ⟨ih.1.step c, ?_⟩
        intro hnone
        show (if _ then _ else _ : Option AllocId × UInt64).2 = _
        change (if _ then _ else _ : Option AllocId × UInt64).1 = none at hnone
        split at hnone
        · cases hnone
        next hge =>
          rw [if_neg hge]
          exact ih.2 hnone
  obtain ⟨b, hb, hlt⟩ := h
  obtain ⟨hold, hnone⟩ := hloop cycle
  cases hfound : oldest rt cycle with
  | some a => exact ⟨a, rfl⟩
  | none =>
      have hbound := hold.le b hb
      rw [hnone hfound] at hbound
      exact absurd hlt (UInt64.not_lt.mpr hbound)

/-- The weak point of every cycle found after a run is the member left
alone for longest: whatever final stretch of the run touches it touches
every other member too. The run gives fewer than 2^64 - 1 stamps. -/
theorem weakPoint_untouched_longest (env : Env) (steps : List (ShadowEntry × Memory))
    (hroom : stampsIn env steps + 1 < 2 ^ 64)
    (stateMap : List StateId) (G : ConnectionGraph) (component : Nat → Nat)
    (c : SmartPointerCycle)
    (hc : c ∈ findCyclesInConnectionGraph (processSteps env texasInit steps) stateMap G component) :
    ∃ a ∈ c.cycle, c.weakPoint = some a
      ∧ ∀ before since, touchLog env texasInit steps = before ++ since → a ∈ since →
        ∀ b ∈ c.cycle, b ∈ since := by
  have hrun := @InOrder.run env steps texasInit [] 0 inOrder_init (by omega)
  rw [List.nil_append, Nat.zero_add] at hrun
  generalize processSteps env texasInit steps = rt at hc hrun
  obtain ⟨cycle, -, heq⟩ := List.mem_filterMap.mp hc
  dsimp only at heq
  split at heq
  · cases heq
  next hstates =>
    injection heq with heq
    subst heq
    -- some state made an object of it, so it has one
    obtain ⟨s, hs⟩ := List.exists_mem_of_ne_nil _ hstates
    obtain ⟨b₀, hb₀, -⟩ := List.any_eq_true.mp (List.mem_filter.mp hs).2
    have hlt : (rt.allocs b₀).freshness < 0xffffffffffffffff := by
      have hset := hrun.setter
      have hb := hrun.lt b₀
      apply UInt64.lt_iff_toNat_lt.mpr
      show _ < 18446744073709551615
      omega
    obtain ⟨a, ha⟩ := exists_oldest ⟨b₀, hb₀, hlt⟩
    obtain ⟨hmem, hle⟩ := oldest_eq_some ha
    refine ⟨a, hmem, ha, ?_⟩
    intro before since hlog hsince b hb
    by_contra hnot
    have horder := hrun.order before since b a hlog hnot hsince
    have hfresh := UInt64.le_iff_toNat_le.mp (hle b hb)
    omega

/-- An access that got the transfer class, in state 0. -/
def transferAt (p : Addr) : ShadowEntry :=
  { ShadowEntry.redundant with
    operation := .stateAdd .to, ptr := p, sizeState := .statePtr 0 }

/-- Two blocks that point to each other, the second one accessed first:
it is the weak point. -/
theorem weakPoint_untouched_longest_second :
    let env := Env.ofTree .flat
    let steps := [(SlotWrite.allocAdd 100 8 1 (some 0)).entry,
      (SlotWrite.allocAdd 200 8 2 (some 0)).entry, (SlotWrite.escapeAdd 100).entry,
      (SlotWrite.escapeAdd 200).entry, transferAt 204, transferAt 100].map fun e => (e, twoPointers)
    let rt := processSteps env texasInit steps
    let G := generateConnectionGraph rt twoPointers
    let c : SmartPointerCycle := ⟨[1, 2], [0], some 2⟩
    c ∈ findCyclesInConnectionGraph rt [0] G (fun v => if v < 2 then 0 else 1)
      ∧ ∃ a ∈ c.cycle, c.weakPoint = some a
        ∧ ∀ before since, touchLog env texasInit steps = before ++ since → a ∈ since →
          ∀ b ∈ c.cycle, b ∈ since := by
  intro env steps rt G c
  have hc : c ∈ findCyclesInConnectionGraph rt [0] G (fun v => if v < 2 then 0 else 1) := by
    decide
  exact ⟨hc, weakPoint_untouched_longest env steps (by decide) [0] G _ c hc⟩

end Carmot.Texas
