/-
The automaton emitted for a scalar store, against the state machine of
`cleanBatch`.

The automaton remembers one address, so it says CO exactly when two
stores in a row have the same address: `[p, p]` is an infix of the
sequence with the initial null pointer in front (`setsClass_co_iff`).
The state machine says CO when any two iterations store to the address
(`storeClass_eq`). The two agree exactly when these are the same thing.

The flag that should limit the CO calls is never tested, so a run of
one address makes one call per store after the first: at most one only
if no address comes three times in a row.
-/
import Mathlib.Data.List.Infix
import Carmot.Pass.EmittedCode
import Carmot.Texas.Proofs.CleanHistory

namespace Carmot.Pass

open Carmot.Texas
open Carmot.Wrapper
open Carmot.Lib (Rw)

-- ================================================== what the code sets

/-- Does the call set class `c` for the address? -/
def setsClass (p : Addr) (c : StateClass) : WrapperCall → Bool
  | .setDirectState _ startPtr _ _ _ stateToSet _ =>
      decide (startPtr = p) && decide (stateToSet = c)
  | _ => false

/-- The highest class the calls set for the address. -/
def highestClass (calls : List WrapperCall) (p : Addr) : Option StateClass :=
  if calls.any (setsClass p .co) then some .co
  else if calls.any (setsClass p .output) then some .output
  else none

/-- The calls with CO. -/
def coCalls (calls : List WrapperCall) : Nat :=
  calls.countP fun
    | .setDirectState _ _ _ _ _ stateToSet _ => decide (stateToSet = .co)
    | _ => false

section Automaton

variable (elem : DirectStateElem) (callstackInst : Option Trace)

/-- A store to the remembered address. -/
theorem executeOorCO_same (g : OorCOGlobals) :
    executeOorCO elem callstackInst g g.newAllocation
      = ({ g with executedOnce := false },
          [createCallToRuntime elem g.newAllocation .co callstackInst]) := by
  simp [executeOorCO]

/-- A store to any other. -/
theorem executeOorCO_other {g : OorCOGlobals} {addr : Addr} (h : addr ≠ g.newAllocation) :
    executeOorCO elem callstackInst g addr
      = (⟨addr, true⟩, [createCallToRuntime elem addr .output callstackInst]) := by
  simp [executeOorCO, h]

/-- The automaton remembers the last address, and says CO for it when it
is the one it remembered. -/
theorem executeOorCO_spec (g : OorCOGlobals) (addr : Addr) :
    (executeOorCO elem callstackInst g addr).1.newAllocation = addr
      ∧ (executeOorCO elem callstackInst g addr).2
        = [createCallToRuntime elem addr (if addr = g.newAllocation then .co else .output)
            callstackInst] := by
  by_cases h : addr = g.newAllocation
  · subst h
    rw [executeOorCO_same, if_pos rfl]
    exact ⟨rfl, rfl⟩
  · rw [executeOorCO_other elem callstackInst h, if_neg h]
    exact ⟨rfl, rfl⟩

/-- Where the repetition sits: at the head, or further on. -/
theorem infix_pair_cons {p l a : Addr} {as : List Addr} :
    [p, p] <:+: l :: a :: as ↔ (p = l ∧ p = a) ∨ [p, p] <:+: a :: as := by
  rw [List.infix_cons_iff, List.cons_prefix_cons, List.cons_prefix_cons]
  simp

/-- CO is set for an address exactly when it comes twice in a row. -/
theorem any_co_iff (p : Addr) (as : List Addr) :
    ∀ g : OorCOGlobals, (executeStores elem callstackInst g as).2.any (setsClass p .co) = true ↔
      [p, p] <:+: g.newAllocation :: as := by
  induction as with
  | nil =>
      intro g
      simp only [executeStores, List.any_nil, Bool.false_eq_true, false_iff]
      intro h
      have hlen := h.length_le
      simp at hlen
  | cons a as ih =>
      intro g
      obtain ⟨hlast, hcalls⟩ := executeOorCO_spec elem callstackInst g a
      simp only [executeStores, List.any_append, Bool.or_eq_true, hcalls, ih, hlast,
        infix_pair_cons]
      apply or_congr_left
      by_cases h : a = g.newAllocation
      · subst h
        simp [createCallToRuntime, setsClass, eq_comm]
      · simp only [if_neg h, createCallToRuntime, setsClass, List.any_cons, List.any_nil]
        simp only [reduceCtorEq, decide_false, Bool.and_false, Bool.or_false,
          Bool.false_eq_true, false_iff]
        rintro ⟨rfl, rfl⟩
        exact h rfl

/-- Every store sets one of the two classes for its address. -/
theorem any_sets_iff (p : Addr) (as : List Addr) :
    ∀ g : OorCOGlobals, ((executeStores elem callstackInst g as).2.any (setsClass p .co) = true
        ∨ (executeStores elem callstackInst g as).2.any (setsClass p .output) = true) ↔
      p ∈ as := by
  induction as with
  | nil => intro g; simp [executeStores]
  | cons a as ih =>
      intro g
      have hstep : ((executeOorCO elem callstackInst g a).2.any (setsClass p .co) = true
          ∨ (executeOorCO elem callstackInst g a).2.any (setsClass p .output) = true) ↔ p = a := by
        rw [(executeOorCO_spec elem callstackInst g a).2]
        split
        · simp [createCallToRuntime, setsClass, eq_comm]
        · simp [createCallToRuntime, setsClass, eq_comm]
      simp only [executeStores, List.any_append, Bool.or_eq_true, List.mem_cons]
      rw [← ih (executeOorCO elem callstackInst g a).1, ← hstep]
      exact or_or_or_comm

/-- The highest class set for an address. -/
theorem highestClass_eq (p : Addr) (as : List Addr) :
    highestClass (executeStores elem callstackInst .init as).2 p
      = if [p, p] <:+: 0 :: as then some .co else if p ∈ as then some .output else none := by
  have hco := any_co_iff elem callstackInst p as .init
  have hany := any_sets_iff elem callstackInst p as .init
  unfold highestClass
  by_cases h : [p, p] <:+: 0 :: as
  · rw [if_pos h, if_pos (hco.mpr h)]
  · have hno : ¬ (executeStores elem callstackInst .init as).2.any (setsClass p .co) = true :=
      fun hc => h (hco.mp hc)
    rw [if_neg h, if_neg hno]
    by_cases hp : p ∈ as
    · rw [if_pos hp, if_pos ((hany.mpr hp).resolve_left hno)]
    · rw [if_neg hp, if_neg fun ho => hp (hany.mp (Or.inr ho))]

/-- After some stores the last address is remembered. -/
theorem executeStores_newAllocation (as : List Addr) :
    ∀ g : OorCOGlobals, (executeStores elem callstackInst g as).1.newAllocation
      = (g.newAllocation :: as).getLast (List.cons_ne_nil _ _) := by
  induction as with
  | nil => intro g; rfl
  | cons a as ih =>
      intro g
      have hlast := (executeOorCO_spec elem callstackInst g a).1
      simp only [executeStores]
      rw [ih, List.getLast_cons (List.cons_ne_nil _ _)]
      simp only [hlast]

/-- A stretch of one address: one CO call for each store that finds the
address remembered. -/
theorem coCalls_replicate (a : Addr) (n : Nat) :
    ∀ g : OorCOGlobals, coCalls (executeStores elem callstackInst g (List.replicate n a)).2
      = if a = g.newAllocation then n else n - 1 := by
  induction n with
  | zero => intro g; simp [executeStores, coCalls]
  | succ n ih =>
      intro g
      obtain ⟨hlast, hcalls⟩ := executeOorCO_spec elem callstackInst g a
      have hrest := ih (executeOorCO elem callstackInst g a).1
      rw [hlast, if_pos rfl] at hrest
      simp only [List.replicate_succ, executeStores]
      unfold coCalls at hrest ⊢
      rw [List.countP_append, hrest, hcalls]
      by_cases h : a = g.newAllocation
      · simp [h, createCallToRuntime]
        omega
      · simp [h, createCallToRuntime]

/-- Between two changes of the address CO is called at most once. -/
def CoAtMostOnce (as : List Addr) : Prop :=
  ∀ pre a n post, as = pre ++ List.replicate n a ++ post →
    coCalls (executeStores elem callstackInst
      (executeStores elem callstackInst .init pre).1 (List.replicate n a)).2 ≤ 1

/-- That is so exactly when no address comes three times in a row. -/
theorem coAtMostOnce_iff (as : List Addr) :
    CoAtMostOnce elem callstackInst as ↔ ∀ p, ¬ [p, p, p] <:+: 0 :: as := by
  constructor
  · rintro h p ⟨u, v, huv⟩
    cases u with
    | nil =>
        -- the null pointer the global starts with is the first of the three
        simp only [List.nil_append, List.cons_append, List.cons.injEq] at huv
        obtain ⟨rfl, rfl⟩ := huv
        have hle := h [] 0 2 v rfl
        rw [coCalls_replicate, executeStores_newAllocation] at hle
        simp [OorCOGlobals.init] at hle
    | cons z u =>
        simp only [List.cons_append, List.cons.injEq] at huv
        obtain ⟨-, rfl⟩ := huv
        have hle := h u p 3 v rfl
        rw [coCalls_replicate] at hle
        split at hle
        · omega
        · omega
  · intro h pre a n post has
    rw [coCalls_replicate, executeStores_newAllocation]
    have hsplit : 0 :: as = (0 :: pre) ++ List.replicate n a ++ post := by
      rw [has]
      simp
    split
    next hlast =>
      by_contra hn
      -- the remembered address and two of the stretch
      refine h a ⟨(0 :: pre).dropLast, List.replicate (n - 2) a ++ post, ?_⟩
      obtain ⟨k, hk⟩ : ∃ k, n = k + 2 := ⟨n - 2, by omega⟩
      have hpre : (0 :: pre).dropLast ++ [a] = 0 :: pre := by
        rw [hlast]
        exact List.dropLast_append_getLast (List.cons_ne_nil _ _)
      rw [hsplit, ← hpre, hk]
      simp [List.replicate_succ]
    next =>
      by_contra hn
      refine h a ⟨0 :: pre, List.replicate (n - 3) a ++ post, ?_⟩
      obtain ⟨k, hk⟩ : ∃ k, n = k + 3 := ⟨n - 3, by omega⟩
      rw [hsplit, hk]
      simp [List.replicate_succ]

end Automaton

-- ================================================== the state machine

/-- The entries of one iteration that stores to the address. -/
def storeIteration (s : StateId) (id : UInt64) (a : Addr) : List ShadowEntry :=
  [(SlotWrite.stateBegin s).entry, (SlotWrite.access .write a id).entry,
    (SlotWrite.stateEnd s).entry]

/-- The class of an address that so many iterations store to. -/
def storeClass : Nat → Option StateClass
  | 0 => none
  | 1 => some .output
  | _ => some .co

/-- One iteration, on the maps of the state. -/
theorem storeIteration_map (env : Env) (s : StateId) (id : UInt64) (a p : Addr) (cl : Cleaner)
    {n : Nat} (h : (cl.ptrs s).statePtrMap p = storeClass n) :
    ((firstPass env cl (storeIteration s id a)).1.ptrs s).statePtrMap p
      = storeClass (n + if p = a then 1 else 0) := by
  have hmaps : (firstPass env cl (storeIteration s id a)).1.ptrs s
      = endIteration (cleanAccess .write a (beginIteration (cl.ptrs s))) := by
    simp only [storeIteration, firstPass, cleanEntry, SlotWrite.entry, SlotWrite.fill,
      accessOperation, Operation.access?, SizeState.getStatePtr, Cleaner.onState,
      Function.update_self]
  rw [hmaps]
  by_cases hp : p = a
  · subst hp
    rw [if_pos rfl]
    rcases n with _ | _ | n
    · simp [cleanAccess, beginIteration, endIteration, h, storeClass, StatePtrs.assignIter]
    · simp [cleanAccess, beginIteration, endIteration, h, storeClass, StatePtrs.upgradeTo,
        StatePtrs.assign, StatePtrs.upgrade]
    · simp [cleanAccess, beginIteration, endIteration, h, storeClass, StatePtrs.upgrade]
  · obtain ⟨hmap, hiter, -⟩ := cleanAccess_other .write (m := beginIteration (cl.ptrs s)) hp
    rw [if_neg hp, Nat.add_zero, ← h]
    have hmap' : (cleanAccess .write a (beginIteration (cl.ptrs s))).statePtrMap p
        = (cl.ptrs s).statePtrMap p := hmap
    cases hc : (cl.ptrs s).statePtrMap p with
    | some c => exact endIteration_of_some (hmap'.trans hc)
    | none =>
        -- the fresh iteration map has nothing to add for another address
        rw [endIteration_of_none (hmap'.trans hc), hiter]
        rfl

/-- A run of such iterations counts the stores to each address. -/
theorem storeIterations_map (env : Env) (s : StateId) (id : UInt64) (p : Addr)
    (as : List Addr) :
    ∀ (cl : Cleaner) {n : Nat}, (cl.ptrs s).statePtrMap p = storeClass n →
      ((firstPass env cl (as.flatMap (storeIteration s id))).1.ptrs s).statePtrMap p
        = storeClass (n + as.count p) := by
  induction as with
  | nil => intro cl n h; exact h
  | cons a as ih =>
      intro cl n h
      rw [List.flatMap_cons, firstPass_append]
      have hstep := ih _ (storeIteration_map env s id a p cl h)
      rw [hstep, List.count_cons]
      congr 1
      by_cases hp : p = a
      · simp [hp]
        omega
      · simp [hp, Ne.symm hp]

/-- The class `cleanBatch` gives an address, with the batches cut
anywhere. -/
theorem storeClass_eq (env : Env) (s : StateId) (id : UInt64) (as : List Addr)
    {bs : List (List ShadowEntry)} (hbs : bs.flatten = as.flatMap (storeIteration s id))
    (p : Addr) :
    ((cleanBatches env texasInit bs).ptrs s).statePtrMap p = storeClass (as.count p) := by
  have hptrs : (cleanBatches env texasInit bs).ptrs
      = (firstPass env texasInit.cleaner bs.flatten).1.ptrs :=
    congrArg Cleaner.ptrs (cleanBatches_cleaner env bs texasInit)
  have hinit : (texasInit.cleaner.ptrs s).statePtrMap p = storeClass 0 := rfl
  rw [hptrs, hbs, storeIterations_map env s id p as _ hinit, Nat.zero_add]

-- ===================================================== the comparison

/-- A repetition stores to the address twice, the initial null pointer
apart. -/
theorem mem_of_infix_pair {p l : Addr} {as : List Addr} (h : [p, p] <:+: l :: as) : p ∈ as := by
  induction as generalizing l with
  | nil =>
      have hlen := h.length_le
      simp at hlen
  | cons a as ih =>
      rcases infix_pair_cons.mp h with ⟨-, rfl⟩ | h
      · exact List.mem_cons_self ..
      · exact List.mem_cons_of_mem _ (ih h)

/-- The emitted code simulates the state machine, and calls CO at most
once between two changes of the address, exactly when, with the null
pointer in front, an address comes more than once if and only if it
comes twice in a row, and none comes three times in a row. -/
theorem storeAutomaton_iff (elem : DirectStateElem) (callstackInst : Option Trace) (env : Env)
    (s : StateId) (id : UInt64) (as : List Addr) {bs : List (List ShadowEntry)}
    (hbs : bs.flatten = as.flatMap (storeIteration s id)) :
    ((∀ p, highestClass (executeStores elem callstackInst .init as).2 p
          = ((cleanBatches env texasInit bs).ptrs s).statePtrMap p)
        ∧ CoAtMostOnce elem callstackInst as) ↔
      (∀ p, 2 ≤ as.count p ↔ [p, p] <:+: 0 :: as) ∧ ∀ p, ¬ [p, p, p] <:+: 0 :: as := by
  rw [coAtMostOnce_iff]
  refine and_congr_left fun _ => forall_congr' fun p => ?_
  rw [highestClass_eq, storeClass_eq env s id as hbs]
  have hmem : p ∈ as ↔ 1 ≤ as.count p := List.one_le_count_iff.symm
  by_cases hpair : [p, p] <:+: 0 :: as
  · have hpos := hmem.mp (mem_of_infix_pair hpair)
    rw [if_pos hpair]
    match hn : as.count p with
    | 0 => omega
    | 1 => simp [storeClass, hpair]
    | n + 2 => simp [storeClass, hpair]
  · rw [if_neg hpair]
    match hn : as.count p with
    | 0 =>
        have hp : p ∉ as := fun h => absurd (hmem.mp h) (by omega)
        simp [storeClass, hpair, hp]
    | 1 =>
        have hp : p ∈ as := hmem.mpr (by omega)
        simp [storeClass, hpair, hp]
    | n + 2 =>
        have hp : p ∈ as := hmem.mpr (by omega)
        simp [storeClass, hpair, hp]

/-- One address, stored to in two iterations: CO in both. -/
theorem storeAutomaton_iff_twice :
    let elem : DirectStateElem := ⟨1, none, none, 32⟩
    let as : List Addr := [0x1000, 0x1000]
    (∀ p, highestClass (executeStores elem none .init as).2 p
          = ((cleanBatches (Env.ofTree .flat) texasInit
              [as.flatMap (storeIteration 0 1)]).ptrs 0).statePtrMap p)
        ∧ CoAtMostOnce elem none as := by
  intro elem as
  refine (storeAutomaton_iff elem none (Env.ofTree .flat) 0 1 as (by simp)).mpr ⟨fun p => ?_,
    fun p h => ?_⟩
  · simp only [as, infix_pair_cons, List.count_cons, List.count_nil]
    constructor
    · intro h
      by_cases hp : p = 0x1000
      · exact Or.inr (Or.inl ⟨hp, hp⟩)
      · simp only [beq_iff_eq, Ne.symm hp, if_false] at h
        omega
    · rintro (⟨h, h'⟩ | ⟨rfl, -⟩ | h)
      · exact absurd (h.symm.trans h') (by decide)
      · decide
      · have hlen := h.length_le
        simp at hlen
  · have heq := h.eq_of_length rfl
    simp only [as, List.cons.injEq, and_true] at heq
    exact absurd (heq.1.symm.trans heq.2.1) (by decide)

/-- An address that comes back after another one: the automaton says
OUTPUT, the state machine CO. -/
theorem storeAutomaton_comesBack :
    let elem : DirectStateElem := ⟨1, none, none, 32⟩
    let as : List Addr := [0x1000, 0x2000, 0x1000]
    highestClass (executeStores elem none .init as).2 0x1000 = some .output
      ∧ ((cleanBatches (Env.ofTree .flat) texasInit
          [as.flatMap (storeIteration 0 1)]).ptrs 0).statePtrMap 0x1000 = some .co := by
  decide

end Carmot.Pass
