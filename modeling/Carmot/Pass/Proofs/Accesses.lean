/-
The runtime functions that follow the program: which of its accesses,
frees and returns they are told of.

Each runtime function has its hooks, what the instrumentation of its
kind is meant to put around an instruction. Those of the module are the
same (`only_isAccess`, `only_isRemove`, `only_isEpilogue`): no other
instrumentation inserts such a call, and an entry is put at its
instruction and nowhere else.
-/
import Carmot.Pass.Proofs.Log

namespace Carmot.Pass

open StateTransition

variable {Func Block Inst Value State : Type}

-- ============================================================== the hooks

namespace Callee

/-- The reports of accesses. -/
def isAccess : Callee → Bool
  | texasAddWithInfo | texasAddWithInfoLoad => true
  | _ => false

/-- The reports of the ends of objects. -/
def isRemove : Callee → Bool
  | texasRemove => true
  | _ => false

/-- The end of the run. -/
def isEpilogue : Callee → Bool
  | memorytoolEpilogue => true
  | _ => false

end Callee

/-- The call that reports an access. -/
def AccessEntry.call (e : AccessEntry Inst Value) : Added Value :=
  match e.sizes with
  | .load => .call .texasAddWithInfoLoad [.const e.id, .value e.pointerOperand, .callstackInst]
  | .store size sizeElement =>
      .call .texasAddWithInfo
        [.const e.id, .value e.pointerOperand, .const size, .const sizeElement, .callstackInst]

section Hooks

variable [DecidableEq Inst] (P : Code Func Block Inst) (V : Visited Func Inst Value)

/-- An access is reported once it is made; of two entries for one
instruction the later is nearer. -/
def accessHooks : Hooks Inst Value where
  before _ := []
  after i := V.accesses.reverse.flatMap fun e => if e.inst = i then [e.call] else []

/-- Objects end at a return, at the end of an unwind destination, and
at a free. -/
def removeHooks : Hooks Inst Value where
  before i :=
    (P.returns.flatMap fun j =>
      if j = i then
        (V.functionAllocaMap (P.getFunction (P.getParent j))).map fun allocaInst =>
          .call .texasRemove [.value allocaInst]
      else [])
    ++ V.invokes.flatMap fun j =>
      match P.flowKind j with
      | .invoke _ unwindDest =>
          if P.back unwindDest = i then
            (V.functionAllocaMap (P.getFunction (P.getParent j))).map fun allocaInst =>
              .call .texasRemove [.value allocaInst]
          else []
      | _ => []
  after i := V.deallocs.reverse.flatMap fun d =>
    if d.1 = i then [.call .texasRemove [.value d.2]] else []

/-- The run ends at a return of main. -/
def epilogueHooks : Hooks Inst Value where
  before i := P.exits.flatMap fun j =>
    if j = i then [.call .memorytoolEpilogue []] else []
  after _ := []

end Hooks

-- ================================================================ silence

section Silent

variable [DecidableEq Inst] {P : Code Func Block Inst} {K : Callee → Bool}

theorem filter_after_silent {es : List (Edit Func Block Inst Value)}
    (hes : ∀ e ∈ es, e.insts.filter (Added.isCallOf K) = []) (i : Inst) :
    es.flatMap (fun e => (Edit.after i e).filter (Added.isCallOf K)) = [] := by
  apply List.flatMap_eq_nil_iff.mpr
  intro e he
  unfold Edit.after
  split
  · split
    · exact hes e he
    · rfl
  · rfl

theorem filter_before_silent {es : List (Edit Func Block Inst Value)}
    (hes : ∀ e ∈ es, e.insts.filter (Added.isCallOf K) = []) (i : Inst) :
    es.flatMap (fun e => (Edit.before P i e).filter (Added.isCallOf K)) = [] := by
  apply List.flatMap_eq_nil_iff.mpr
  intro e he
  unfold Edit.before
  split
  · split
    · exact hes e he
    · rfl
  · split
    · exact hes e he
    · rfl
  · rfl

omit [DecidableEq Inst] in
theorem Edit.apart_of_silent {e : Edit Func Block Inst Value}
    (he : e.insts.filter (Added.isCallOf K) = []) : e.Apart K := by
  unfold Edit.Apart
  split <;> first | exact True.intro | exact he

end Silent

-- ============================================================== the edits

section Groups

variable (P : Code Func Block Inst) (V : Visited Func Inst Value)

/-- Call stacks, allocations and PIN. -/
def startEdits [DecidableEq Func] (o : InsertionOptions) : List (Edit Func Block Inst Value) :=
  callstackEdits P V.uniqueCallstackFunctions
    ++ (V.allocations.map fun e => ⟨checkedPlace P (e.inst.elim .firstInstOfMain .inst), e.insts⟩)
    ++ (V.callocs.map fun e => ⟨checkedPlace P (.inst e.inst), e.insts⟩)
    ++ (V.reallocs.map fun e => ⟨checkedPlace P (.inst e.inst), e.insts⟩)
    ++ if o.disablePin then [] else V.unknowns.flatMap (UnknownEntry.edits P)

/-- Loads and stores. -/
def accessEdits : List (Edit Func Block Inst Value) :=
  V.accesses.map fun e => ⟨checkedPlace P (.inst e.inst), e.insts⟩

/-- The ends of objects. -/
def endEdits : List (Edit Func Block Inst Value) :=
  (V.deallocs.map fun d => ⟨.after d.1, removeInsts d.2⟩)
    ++ P.returns.flatMap (returnEdits P V.functionAllocaMap)
    ++ V.invokes.flatMap (invokeEdits P V.functionAllocaMap)

theorem moduleEdits_groups [DecidableEq Func] {o : InsertionOptions}
    (hall : o.disableAllInstrumentation = false) :
    moduleEdits P o V = startEdits P V o ++ (accessEdits P V ++ (endEdits P V ++ frameEdits P o)) := by
  unfold moduleEdits instrumentEdits startEdits accessEdits endEdits
  rw [hall, if_neg Bool.false_ne_true]
  simp only [List.append_assoc]

variable {P V} {K : Callee → Bool}

theorem silent_startEdits [DecidableEq Func] (o : InsertionOptions)
    (hK : K = Callee.isAccess ∨ K = Callee.isRemove ∨ K = Callee.isEpilogue) :
    ∀ e ∈ startEdits P V o, e.insts.filter (Added.isCallOf K) = [] := by
  intro e he
  unfold startEdits at he
  simp only [List.mem_append, List.mem_map] at he
  rcases he with (((he | he) | he) | he) | he
  · obtain ⟨f, -, rfl⟩ := List.mem_map.mp he
    dsimp only
    unfold callstackCall
    split <;> rcases hK with rfl | rfl | rfl <;> rfl
  · obtain ⟨a, -, rfl⟩ := he
    rcases hK with rfl | rfl | rfl <;> rfl
  · obtain ⟨a, -, rfl⟩ := he
    rcases hK with rfl | rfl | rfl <;> rfl
  · obtain ⟨a, -, rfl⟩ := he
    rcases hK with rfl | rfl | rfl <;> rfl
  · split at he
    · cases he
    · obtain ⟨a, -, he⟩ := List.mem_flatMap.mp he
      rcases List.mem_cons.mp he with rfl | he
      · rcases hK with rfl | rfl | rfl <;> rfl
      · rw [List.mem_singleton.mp he]
        rcases hK with rfl | rfl | rfl <;> rfl

theorem silent_accessEdits (hK : K = Callee.isRemove ∨ K = Callee.isEpilogue) :
    ∀ e ∈ accessEdits P V, e.insts.filter (Added.isCallOf K) = [] := by
  intro e he
  obtain ⟨a, -, rfl⟩ := List.mem_map.mp he
  dsimp only
  unfold AccessEntry.insts
  split <;> rcases hK with rfl | rfl <;> rfl

/-- What ends objects is a removal. -/
theorem insts_endEdits : ∀ e ∈ endEdits P V, ∃ address, e.insts = removeInsts address := by
  intro e he
  unfold endEdits at he
  simp only [List.mem_append, List.mem_map, List.mem_flatMap] at he
  rcases he with (he | he) | he
  · obtain ⟨d, -, rfl⟩ := he
    exact ⟨_, rfl⟩
  · obtain ⟨j, -, he⟩ := he
    obtain ⟨allocaInst, -, rfl⟩ := List.mem_map.mp he
    exact ⟨_, rfl⟩
  · obtain ⟨j, -, he⟩ := he
    unfold invokeEdits at he
    split at he
    · obtain ⟨allocaInst, -, rfl⟩ := List.mem_map.mp he
      exact ⟨_, rfl⟩
    · cases he

theorem silent_endEdits (hK : K = Callee.isAccess ∨ K = Callee.isEpilogue) :
    ∀ e ∈ endEdits P V, e.insts.filter (Added.isCallOf K) = [] := by
  intro e he
  obtain ⟨address, heq⟩ := insts_endEdits e he
  rw [heq]
  rcases hK with rfl | rfl <;> rfl

theorem silent_frameEdits (o : InsertionOptions)
    (hK : K = Callee.isAccess ∨ K = Callee.isRemove) :
    ∀ e ∈ (frameEdits P o : List (Edit Func Block Inst Value)),
      e.insts.filter (Added.isCallOf K) = [] := by
  intro e he
  rcases List.mem_cons.mp he with rfl | he
  · rcases hK with rfl | rfl <;> rfl
  · obtain ⟨i, -, rfl⟩ := List.mem_map.mp he
    rcases hK with rfl | rfl <;> rfl

end Groups

-- ================================================== the hooks of the module

section Only

variable [DecidableEq Func] [DecidableEq Inst] {P : Code Func Block Inst}

/-- The calls of some functions, from the edits that make them. -/
theorem only_moduleHooks (o : InsertionOptions) (V : Visited Func Inst Value) (K : Callee → Bool)
    {es₁ es es₂ : List (Edit Func Block Inst Value)} (hes : moduleEdits P o V = es₁ ++ (es ++ es₂))
    (hes₁ : ∀ e ∈ es₁, e.insts.filter (Added.isCallOf K) = [])
    (hes₂ : ∀ e ∈ es₂, e.insts.filter (Added.isCallOf K) = []) (hapart : ∀ e ∈ es, e.Apart K) :
    (moduleHooks P o V).only K =
      ⟨fun i => es.flatMap fun e => (Edit.before P i e).filter (Added.isCallOf K),
        fun i => es.reverse.flatMap fun e => (Edit.after i e).filter (Added.isCallOf K)⟩ := by
  have hall : ∀ e ∈ moduleEdits P o V, e.Apart K := by
    intro e he
    rw [hes] at he
    rcases List.mem_append.mp he with he | he
    · exact Edit.apart_of_silent (hes₁ e he)
    · rcases List.mem_append.mp he with he | he
      · exact hapart e he
      · exact Edit.apart_of_silent (hes₂ e he)
  unfold Hooks.only moduleHooks
  congr 1
  · funext i
    rw [filter_before_applyHooks K i _ _ hall, hes, List.flatMap_append, List.flatMap_append,
      filter_before_silent hes₁, filter_before_silent hes₂, List.append_nil]
    rfl
  · funext i
    rw [after_applyHooks, hes]
    show List.filter _ (_ ++ []) = _
    rw [List.append_nil, List.filter_flatMap, List.reverse_append, List.reverse_append,
      List.flatMap_append, List.flatMap_append,
      filter_after_silent fun e he => hes₁ e (List.mem_reverse.mp he),
      filter_after_silent fun e he => hes₂ e (List.mem_reverse.mp he), List.append_nil,
      List.nil_append]

theorem only_isAccess {o : InsertionOptions} (hall : o.disableAllInstrumentation = false)
    {V : Visited Func Inst Value} (hV : V.Placed P) :
    (moduleHooks P o V).only Callee.isAccess = accessHooks V := by
  have hplace : ∀ a ∈ V.accesses, checkedPlace P (.inst a.inst) = .after a.inst :=
    fun a ha => checkedPlace_other (hV.accesses a ha)
  have hmap : accessEdits P V = V.accesses.map fun a => ⟨.after a.inst, a.insts⟩ := by
    apply List.map_congr_left
    intro a ha
    rw [hplace a ha]
  rw [only_moduleHooks o V Callee.isAccess (moduleEdits_groups P V hall)
    (silent_startEdits o (.inl rfl))]
  · rw [hmap]
    unfold accessHooks
    congr 1
    · funext i
      rw [List.flatMap_map]
      exact List.flatMap_eq_nil_iff.mpr fun _ _ => rfl
    · funext i
      rw [← List.map_reverse, List.flatMap_map]
      apply List.flatMap_congr
      intro a _
      show (if a.inst = i then a.insts else []).filter _ = if a.inst = i then [a.call] else []
      split
      · obtain ⟨inst, pointerOperand, sizes, id⟩ := a
        cases sizes <;> rfl
      · rfl
  · intro e he
    rcases List.mem_append.mp he with he | he
    · exact silent_endEdits (.inl rfl) e he
    · exact silent_frameEdits o (.inl rfl) e he
  · intro e he
    rw [hmap] at he
    obtain ⟨a, -, rfl⟩ := List.mem_map.mp he
    exact True.intro

omit [DecidableEq Func] in
/-- The removals of a list of objects at one place. -/
theorem flatMap_remove {i j : Inst} (place : Place Func Block Inst) (values : List Value)
    (hplace : ∀ insts : List (Added Value),
      Edit.before P i ⟨place, insts⟩ = if j = i then insts else []) :
    (values.map fun allocaInst => (⟨place, removeInsts allocaInst⟩ : Edit Func Block Inst Value)).flatMap
        (fun e => (Edit.before P i e).filter (Added.isCallOf Callee.isRemove))
      = if j = i then values.map fun allocaInst => .call .texasRemove [.value allocaInst]
        else [] := by
  rw [List.flatMap_map]
  by_cases heq : j = i
  · rw [if_pos heq, List.map_eq_flatMap]
    apply List.flatMap_congr
    intro v _
    rw [hplace, if_pos heq]
    rfl
  · rw [if_neg heq]
    apply List.flatMap_eq_nil_iff.mpr
    intro v _
    rw [hplace, if_neg heq]
    rfl

theorem only_isRemove {o : InsertionOptions} (hall : o.disableAllInstrumentation = false)
    (V : Visited Func Inst Value) :
    (moduleHooks P o V).only Callee.isRemove = removeHooks P V := by
  have hes : moduleEdits P o V
      = (startEdits P V o ++ accessEdits P V) ++ (endEdits P V ++ frameEdits P o) := by
    rw [moduleEdits_groups P V hall, List.append_assoc]
  rw [only_moduleHooks o V Callee.isRemove hes]
  · unfold removeHooks endEdits
    congr 1
    · funext i
      rw [List.flatMap_append, List.flatMap_append, List.flatMap_assoc, List.flatMap_assoc]
      have hfree : (V.deallocs.map fun d =>
          (⟨.after d.1, removeInsts d.2⟩ : Edit Func Block Inst Value)).flatMap
            (fun e => (Edit.before P i e).filter (Added.isCallOf Callee.isRemove)) = [] := by
        rw [List.flatMap_map]
        exact List.flatMap_eq_nil_iff.mpr fun _ _ => rfl
      rw [hfree, List.nil_append]
      congr 1
      · apply List.flatMap_congr
        intro j _
        exact flatMap_remove (.before j) _ fun _ => rfl
      · apply List.flatMap_congr
        intro j _
        unfold invokeEdits
        cases P.flowKind j with
        | invoke normalDest unwindDest =>
            exact flatMap_remove (P := P) (i := i) (j := P.back unwindDest) (.back unwindDest) _
              fun _ => rfl
        | phi | ehPad | other | ret | terminator => rfl
    · funext i
      have hlocals : ∀ es : List (Edit Func Block Inst Value),
          (∀ e ∈ es, ∀ j, e.place ≠ .after j) →
          es.reverse.flatMap (fun e => (Edit.after i e).filter (Added.isCallOf Callee.isRemove))
            = [] := by
        intro es hne
        apply List.flatMap_eq_nil_iff.mpr
        intro e he
        unfold Edit.after
        split
        · next j hplace => exact absurd hplace (hne e (List.mem_reverse.mp he) j)
        · rfl
      rw [List.reverse_append, List.reverse_append, List.flatMap_append, List.flatMap_append,
        hlocals, hlocals, List.nil_append, List.nil_append, ← List.map_reverse, List.flatMap_map]
      · apply List.flatMap_congr
        intro d _
        show (if d.1 = i then removeInsts d.2 else []).filter _ = _
        split <;> rfl
      · intro e he j hplace
        obtain ⟨k, -, he⟩ := List.mem_flatMap.mp he
        obtain ⟨allocaInst, -, rfl⟩ := List.mem_map.mp he
        cases hplace
      · intro e he j hplace
        obtain ⟨k, -, he⟩ := List.mem_flatMap.mp he
        unfold invokeEdits at he
        split at he
        · obtain ⟨allocaInst, -, rfl⟩ := List.mem_map.mp he
          cases hplace
        · cases he
  · intro e he
    rcases List.mem_append.mp he with he | he
    · exact silent_startEdits o (.inr (.inl rfl)) e he
    · exact silent_accessEdits (.inl rfl) e he
  · exact silent_frameEdits o (.inr rfl)
  · intro e he
    unfold endEdits at he
    simp only [List.mem_append, List.mem_map, List.mem_flatMap] at he
    rcases he with (he | he) | he
    · obtain ⟨d, -, rfl⟩ := he
      exact True.intro
    · obtain ⟨j, -, he⟩ := he
      obtain ⟨allocaInst, -, rfl⟩ := List.mem_map.mp he
      exact True.intro
    · obtain ⟨j, -, he⟩ := he
      unfold invokeEdits at he
      split at he
      · obtain ⟨allocaInst, -, rfl⟩ := List.mem_map.mp he
        exact True.intro
      · cases he

theorem only_isEpilogue {o : InsertionOptions} (hall : o.disableAllInstrumentation = false)
    (V : Visited Func Inst Value) :
    (moduleHooks P o V).only Callee.isEpilogue = epilogueHooks P := by
  have hes : moduleEdits P o V
      = (startEdits P V o ++ (accessEdits P V ++ endEdits P V)) ++ (frameEdits P o ++ []) := by
    rw [moduleEdits_groups P V hall, List.append_nil]
    simp only [List.append_assoc]
  rw [only_moduleHooks o V Callee.isEpilogue hes]
  · unfold epilogueHooks frameEdits
    congr 1
    · funext i
      rw [List.flatMap_cons, List.flatMap_map]
      show [] ++ _ = _
      rw [List.nil_append]
      apply List.flatMap_congr
      intro j _
      show (if j = i then _ else []).filter _ = _
      split <;> rfl
    · funext i
      apply List.flatMap_eq_nil_iff.mpr
      intro e he
      rcases List.mem_cons.mp (List.mem_reverse.mp he) with rfl | he
      · rfl
      · obtain ⟨j, -, rfl⟩ := List.mem_map.mp he
        rfl
  · intro e he
    rcases List.mem_append.mp he with he | he
    · exact silent_startEdits o (.inr (.inr rfl)) e he
    · rcases List.mem_append.mp he with he | he
      · exact silent_accessEdits (.inr rfl) e he
      · exact silent_endEdits (.inr rfl) e he
  · exact fun e he => absurd he List.not_mem_nil
  · intro e he
    rcases List.mem_cons.mp he with rfl | he
    · rfl
    · obtain ⟨j, -, rfl⟩ := List.mem_map.mp he
      exact True.intro

end Only

-- ============================================================ what is told

section Told

variable [DecidableEq Func] [DecidableEq Block] [DecidableEq Inst]

theorem storingVisited_library : storingVisited.Library storingMain storingMeaning := by
  refine ⟨fun _ _ _ _ => List.mem_singleton.mpr rfl, ?_⟩
  intro i _ s f
  match i with
  | 0 | 1 | 2 | 3 | 4 => exact fun hcall => nomatch hcall

omit [DecidableEq Func] [DecidableEq Block] in
/-- Code in front stays in front of what is put before later. -/
theorem applyHooks_front {P : Code Func Block Inst} {a : Added Value} {i : Inst}
    (es : List (Edit Func Block Inst Value)) : ∀ {h : Hooks Inst Value},
    (∃ as, h.before i = a :: as) → (∀ e ∈ es, ∃ j, e.place = .before j) →
      ∃ as, (applyHooks P es h).before i = a :: as := by
  induction es with
  | nil => exact fun hfront _ => hfront
  | cons e es ih =>
      intro h hfront hes
      refine ih ?_ fun e' he' => hes e' (List.mem_cons_of_mem _ he')
      obtain ⟨j, hplace⟩ := hes e (List.mem_cons_self ..)
      obtain ⟨as, has⟩ := hfront
      obtain ⟨place, insts⟩ := e
      subst hplace
      show ∃ as, (h.updateBefore j (· ++ insts)).before i = a :: as
      by_cases heq : i = j
      · subst heq
        rw [h.updateBefore_self, has]
        exact ⟨as ++ insts, rfl⟩
      · rw [(h.sameBut_updateBefore j _).before i heq]
        exact ⟨as, has⟩

omit [DecidableEq Block] in
/-- The prologue is in front of main. -/
theorem moduleHooks_prologue (P : Code Func Block Inst) (o : InsertionOptions)
    (V : Visited Func Inst Value) :
    ∃ as, (moduleHooks P o V).before (P.firstInsertionPt (P.entryBlock P.main))
      = .call .memorytoolPrologue o.prologue.args :: as := by
  unfold moduleHooks moduleEdits applyHooks
  rw [List.foldl_append]
  unfold frameEdits
  rw [List.foldl_cons]
  apply applyHooks_front
  · show ∃ as, (Hooks.updateBefore _ _ _).before _ = _
    rw [Hooks.updateBefore_self]
    exact ⟨_, rfl⟩
  · intro e he
    obtain ⟨j, -, rfl⟩ := List.mem_map.mp he
    exact ⟨j, rfl⟩

omit [DecidableEq Func] [DecidableEq Block] [DecidableEq Inst] in
/-- The first instruction that runs is main's. -/
theorem ran_first {P : Code Func Block Inst} {m : Meaning Func Block Inst Value State} {s : State}
    {c : Config Inst Value State}
    (hc : Reaches (step P m P.bitcode Hooks.none) (Config.init P P.bitcode s) c) :
    c.ran = [] ∨ ∃ evs, c.ran = .ran 0 (P.firstInsertionPt (P.entryBlock P.main)) s :: evs := by
  rcases Relation.ReflTransGen.cases_head hc with rfl | ⟨c₁, hstep, hrest⟩
  · exact .inl rfl
  · apply Or.inr
    obtain ⟨body, hb⟩ := P.entry_split P.main_mem
    have hfirst : [.ran 0 (P.firstInsertionPt (P.entryBlock P.main)) s] <+: c₁.log := by
      unfold Config.init Code.bitcode at hstep
      rw [hb] at hstep
      rw [← Option.some_inj.mp hstep]
      exact log_transfer P m _ Hooks.none ⟨[⟨0, none, _⟩], (m.exec _ s).1, 1, [.ran 0 _ s]⟩ _
    obtain ⟨evs, heq⟩ := hfirst.trans (log_reaches P m _ _ hrest)
    refine ⟨evs.filter Event.isRan, ?_⟩
    unfold Config.ran
    rw [← heq]
    rfl

end Told

end Carmot.Pass
