/-
Soundness of the touch-same-object optimisation: what is skipped was
touched before.

An execution of one activation is a path through the function together
with the values of its SSA registers at every step. A register changes
only when its definition executes, so two uses of one register read the
same value if the definition does not execute in between.

Everything else is the cut argument of Carmot.Lib.Flow, for the fact
"this register was used by a load (store) the visitor considers". Its
cuts are the register's definition, which dominates every use, and the
start calls of the function's ROIs, which dominate every instruction
the visitor considers. So the use that makes a later one redundant can
be taken after the last execution of all of these, and among such uses
the first is not skipped itself.
-/
import Carmot.Pass.TouchSameObject

namespace Carmot.Pass

open Carmot.Lib (FlowGraph)

variable {Func Inst Value : Type}

/-- One activation of a function, up to its `length`-th step: the
instructions executed and the registers before each. -/
structure Execution (M : Module Func Inst Value) (f : Func) where
  length : Nat
  inst : Nat → Inst
  register : Nat → Value → UInt64
  path : (M.graph f).IsPath inst length
  keeps : ∀ k < length, ∀ v, M.definition v ≠ some (inst k) → register (k + 1) v = register k v

namespace Execution

variable {M : Module Func Inst Value} {f : Func} (e : Execution M f)

theorem getFunction_inst {k : Nat} (hk : k ≤ e.length) : M.getFunction (e.inst k) = f := by
  induction k with
  | zero =>
      rw [e.path.start]
      exact M.getFunction_first f
  | succ k ih =>
      rw [M.getFunction_succ _ _ (e.path.step k (by omega))]
      exact ih (by omega)

/-- A register keeps its value while its definition does not execute. -/
theorem register_eq {v : Value} {k n : Nat} (hkn : k ≤ n) (hn : n ≤ e.length)
    (hdef : ∀ m, k ≤ m → m < n → M.definition v ≠ some (e.inst m)) :
    e.register n v = e.register k v := by
  induction n, hkn using Nat.le_induction with
  | base => rfl
  | succ n hkn ih =>
      rw [e.keeps n (by omega) v (hdef n hkn (by omega))]
      exact ih (by omega) fun m hm hmn => hdef m hm (by omega)

end Execution

section Touch

variable {t t' : Touch} {v v' : Value} {k : InstKind Value}

theorem pointerOperand_of_touched (h : k.touched t = some v) : k.pointerOperand = some v := by
  cases k with
  | load ptr => cases t with
      | load => exact h
      | store => cases h
  | store ptr => cases t with
      | load => cases h
      | store => exact h
  | other => cases t with
      | load => cases h
      | store => cases h

/-- Loads and stores are different instructions. -/
theorem touch_unique (h : k.touched t = some v) (h' : k.touched t' = some v') : t = t' := by
  cases k with
  | load ptr => cases t with
      | load => cases t' with
          | load => rfl
          | store => cases h'
      | store => cases h
  | store ptr => cases t with
      | load => cases h
      | store => cases t' with
          | load => cases h'
          | store => rfl
  | other => cases t with
      | load => cases h
      | store => cases h

end Touch

section Sound

variable {M : Module Func Inst Value} {dominators : Func → DominatorSummary Inst}
  {functionsToRunDFA : List Func} {rois : List (ROI M)} {t : Touch} {i : Inst} {v : Value}

/-- What the map says about an instruction, under pointer granularity:
it is a load (store) through the pointer, of a function to analyse, and
the ROIs of the function are open. -/
theorem instToObjMap_eq_some [DecidableEq Func]
    (h : instToObjMap M dominators functionsToRunDFA rois false t i = some v) :
    (M.kind i).touched t = some v
      ∧ ∀ roi ∈ rois, M.getFunction roi.start = M.getFunction i →
          (dominators (M.getFunction i)).dt roi.start i = true := by
  unfold instToObjMap at h
  split at h
  case isFalse => cases h
  case isTrue =>
    split at h
    case isFalse => cases h
    case isTrue hconsider =>
      refine ⟨by simpa using h, ?_⟩
      intro roi hroi hfunc
      have hmem : roi ∈ funcToRoiMap M rois (M.getFunction i) := by
        unfold funcToRoiMap
        rw [List.mem_filter]
        exact ⟨hroi, decide_eq_true hfunc⟩
      have hall := List.all_eq_true.mp hconsider roi hmem
      rw [Bool.and_eq_true] at hall
      exact hall.1

/-- The fact a load (store) generates is its pointer. -/
theorem mem_computeGEN {objMap : Inst → Option Value} :
    v ∈ computeGEN objMap i ↔ objMap i = some v := by
  unfold computeGEN
  cases objMap i with
  | none => simp
  | some obj => simp [eq_comm]

/-- The cut points of a register: its definition and the start calls of
the function's ROIs. -/
def cutPoints (M : Module Func Inst Value) (rois : List (ROI M)) (f : Func) (v : Value) : Set Inst :=
  {c | M.definition v = some c ∨ ∃ roi ∈ rois, M.getFunction roi.start = f ∧ roi.start = c}

/-- They come before every use the visitor considers. -/
theorem cutPoints_dominate [DecidableEq Func]
    (hdt : ∀ f a b, (dominators f).dt a b = true → (M.graph f).Dominates a b) {c : Inst}
    (hc : c ∈ cutPoints M rois (M.getFunction i) v)
    (hmap : instToObjMap M dominators functionsToRunDFA rois false t i = some v) :
    (M.graph (M.getFunction i)).StrictlyDominates c i := by
  obtain ⟨htouched, hopen⟩ := instToObjMap_eq_some hmap
  rcases hc with hdef | ⟨roi, hroi, hfunc, rfl⟩
  · exact M.definition_dominates i v c (pointerOperand_of_touched htouched) hdef
  · apply (hdt _ _ _ (hopen roi hroi hfunc)).strictly
    -- a call is no load or store
    intro heq
    rw [← heq, roi.start_call] at htouched
    cases t with
    | load => cases htouched
    | store => cases htouched

variable [DecidableEq Value]

theorem mem_getInstsToSkip {funcToDfr : Func → DataFlowResult Inst Value}
    {objMap : Inst → Option Value} :
    i ∈ getInstsToSkip M funcToDfr objMap functionsToRunDFA ↔
      M.getFunction i ∈ functionsToRunDFA
        ∧ ∃ obj, objMap i = some obj ∧ obj ∈ (funcToDfr (M.getFunction i)).inSet i := by
  unfold getInstsToSkip
  simp only [List.mem_flatMap, List.mem_filter, M.mem_insts]
  constructor
  · intro h
    obtain ⟨f, hf, hfunc, hskip⟩ := h
    subst hfunc
    refine ⟨hf, ?_⟩
    cases hobj : objMap i with
    | none => simp [hobj] at hskip
    | some obj => exact ⟨obj, rfl, by simpa [hobj] using hskip⟩
  · intro h
    obtain ⟨hf, obj, hobj, hin⟩ := h
    exact ⟨M.getFunction i, hf, rfl, by simpa [hobj] using hin⟩

/-- The engine's result, read as a solution over the function's
instructions. -/
theorem DataFlowResult.Solves.mustSolution {dfr : DataFlowResult Inst Value}
    {objMap : Inst → Option Value} {f : Func} (h : dfr.Solves M objMap f) :
    (M.graph f).MustSolution (fun i => {v | M.getFunction i = f ∧ objMap i = some v})
      (fun i => {v | M.getFunction i = f ∧ v ∈ dfr.inSet i})
      (fun i => {v | M.getFunction i = f ∧ v ∈ dfr.outSet i}) where
  entry := by
    ext v
    simp [Module.graph, h.in_first]
  succ i j hij := by
    intro v hv
    have hi : M.getFunction i = f := by
      rw [← M.getFunction_succ i j hij]
      exact hv.1
    exact ⟨hi, h.in_succ i hi j hij hv.2⟩
  after_eq i := by
    ext v
    by_cases hi : M.getFunction i = f
    · simp [hi, h.out_eq i hi, h.gen_eq i hi, mem_computeGEN]
    · simp [hi]

variable [DecidableEq Func]

/-- The loads to skip, then the stores. -/
theorem mem_getTouchSameObjectInsts {funcToDfr : Touch → Func → DataFlowResult Inst Value} :
    i ∈ getTouchSameObjectInsts M dominators functionsToRunDFA rois false funcToDfr ↔
      ∃ t, i ∈ getInstsToSkip M (funcToDfr t)
        (instToObjMap M dominators functionsToRunDFA rois false t) functionsToRunDFA := by
  unfold getTouchSameObjectInsts
  rw [List.mem_append]
  constructor
  · intro h
    rcases h with h | h
    · exact ⟨.load, h⟩
    · exact ⟨.store, h⟩
  · intro h
    obtain ⟨t, h⟩ := h
    cases t with
    | load => exact Or.inl h
    | store => exact Or.inr h

/-- Every skipped load (store) of every activation was covered: a load
(store) that is not skipped executed before with the same pointer
value, and after the most recent start of every ROI of the function. -/
theorem skipped_touched_before
    (hdt : ∀ f a b, (dominators f).dt a b = true → (M.graph f).Dominates a b)
    {funcToDfr : Touch → Func → DataFlowResult Inst Value}
    (hdfr : ∀ t, ∀ f ∈ functionsToRunDFA,
      (funcToDfr t f).Solves M (instToObjMap M dominators functionsToRunDFA rois false t) f)
    {f : Func} (e : Execution M f) {n : Nat} (hn : n ≤ e.length)
    (hskip : e.inst n ∈ getTouchSameObjectInsts M dominators functionsToRunDFA rois false funcToDfr) :
    ∃ t v, (M.kind (e.inst n)).touched t = some v
      ∧ ∃ k < n, ∃ v', (M.kind (e.inst k)).touched t = some v'
        ∧ e.inst k ∉ getTouchSameObjectInsts M dominators functionsToRunDFA rois false funcToDfr
        ∧ e.register k v' = e.register n v
        ∧ ∀ roi ∈ rois, M.getFunction roi.start = f →
            ∃ s < k, e.inst s = roi.start ∧ ∀ m, s < m → m < n → e.inst m ≠ roi.start := by
  have hfunc : M.getFunction (e.inst n) = f := e.getFunction_inst hn
  obtain ⟨t, ht⟩ := mem_getTouchSameObjectInsts.mp hskip
  obtain ⟨hf, v, hmap, hin⟩ := mem_getInstsToSkip.mp ht
  rw [hfunc] at hf hin
  have hpath := e.path.take hn
  obtain ⟨k, hk, ⟨hkfunc, hkmap⟩, hkin, hcut⟩ :=
    (hdfr t f hf).mustSolution.exists_first_gen hpath (show v ∈ _ from ⟨hfunc, hin⟩)
      (cutPoints M rois f v) (by
        intro c hc g hg
        have hdom := cutPoints_dominate hdt (i := g) (by rw [hg.1]; exact hc) hg.2
        rw [hg.1] at hdom
        exact hdom)
  refine ⟨t, v, (instToObjMap_eq_some hmap).1, k, hk, v, (instToObjMap_eq_some hkmap).1, ?_, ?_, ?_⟩
  · -- not skipped: it is the first use since the cuts, and of one kind only
    intro hkskip
    obtain ⟨t', ht'⟩ := mem_getTouchSameObjectInsts.mp hkskip
    obtain ⟨_, v', hkmap', hkin'⟩ := mem_getInstsToSkip.mp ht'
    have heq : t = t' :=
      touch_unique (instToObjMap_eq_some hkmap).1 (instToObjMap_eq_some hkmap').1
    subst heq
    rw [hkmap] at hkmap'
    cases hkmap'
    rw [hkfunc] at hkin'
    exact hkin ⟨hkfunc, hkin'⟩
  · symm
    apply e.register_eq (Nat.le_of_lt hk) hn
    intro m hkm hmn hdef
    have hlt := hcut m hmn (Or.inl hdef)
    omega
  · intro roi hroi hroifunc
    have hstart : roi.start ∈ cutPoints M rois f v := Or.inr ⟨roi, hroi, hroifunc, rfl⟩
    have hdom := cutPoints_dominate hdt (i := e.inst n) (by rw [hfunc]; exact hstart) hmap
    rw [hfunc] at hdom
    obtain ⟨s, hs, hvisit, hlast⟩ := FlowGraph.exists_last (P := fun m => e.inst m = roi.start)
      (hdom e.inst n hpath rfl)
    refine ⟨s, hcut s hs (by rw [hvisit]; exact hstart), hvisit, ?_⟩
    intro m hsm hmn heq
    have hle := hlast m hmn heq
    omega

end Sound

-- ============================================================== a loop

/-- The successors in a loop over the nodes 1 to 5. -/
def loopSuccessors (i : Fin 7) : List (Fin 7) :=
  if i = 5 then [1, 6] else if i = 6 then [] else [i + 1]

/-- In it, every node dominates the later ones. -/
theorem loop_dominates {a b : Fin 7} (hab : a ≤ b) :
    FlowGraph.Dominates ⟨0, fun i j => j ∈ loopSuccessors i⟩ a b := by
  have hpred : ∀ i j a : Fin 7, j ∈ loopSuccessors i → a ≤ j → a ≠ j → a ≤ i := by decide
  intro p n hp hn
  induction n generalizing b with
  | zero =>
      have hzero : b = 0 := hn.symm.trans hp.start
      exact ⟨0, Nat.le_refl 0, by rw [hn]; omega⟩
  | succ n ih =>
      by_cases heq : a = b
      · exact ⟨n + 1, Nat.le_refl _, hn.trans heq.symm⟩
      · have hle := hpred _ _ a (hp.step n (Nat.lt_succ_self n)) (by rw [hn]; exact hab)
          (by rw [hn]; exact heq)
        obtain ⟨k, hk, hka⟩ := ih hle (hp.take (Nat.le_succ n)) rfl
        exact ⟨k, by omega, hka⟩

/-- A loop with a ROI as its body: 1 starts the ROI, 2 computes a
pointer, 3 and 4 load through it, 5 stops the ROI and goes back to 1 or
on to 6. -/
def roiLoop : Module Unit (Fin 7) Unit where
  insts _ := List.finRange 7
  getFunction _ := ()
  firstInst _ := 0
  successors := loopSuccessors
  kind i := if i = 3 ∨ i = 4 then .load () else .other
  gepPointer _ := none
  definition _ := some 2
  mem_insts _ i := by simp
  getFunction_first _ := rfl
  getFunction_succ _ _ _ := rfl
  definition_dominates := by
    have huse : ∀ i : Fin 7, (if i = 3 ∨ i = 4 then InstKind.load () else .other).pointerOperand
        = some () → 2 ≤ i ∧ 2 ≠ i := by decide
    intro i ptr d hptr hdef
    injection hdef with hdef
    rw [← hdef]
    exact (loop_dominates (huse i hptr).1).strictly (huse i hptr).2

/-- Its ROI. -/
def loopRoi : ROI roiLoop := ⟨1, [5], rfl, by decide⟩

/-- Its dominator trees: a chain, forwards and backwards. -/
def loopDominators (_ : Unit) : DominatorSummary (Fin 7) := ⟨fun a b => a ≤ b, fun a b => b ≤ a⟩

/-- The engine's result: the pointer of the loads is known from the
first load on, but not in the next iteration. -/
def loopDfr (t : Touch) (_ : Unit) : DataFlowResult (Fin 7) Unit where
  gen i := if t = .load ∧ (i = 3 ∨ i = 4) then {()} else ∅
  inSet i := if t = .load ∧ 4 ≤ i then {()} else ∅
  outSet i := if t = .load ∧ 3 ≤ i then {()} else ∅

theorem loopDfr_solves (t : Touch) :
    (loopDfr t ()).Solves roiLoop (instToObjMap roiLoop loopDominators [()] [loopRoi] false t) () := by
  cases t with
  | load => exact ⟨by decide, by decide, by decide, by decide⟩
  | store => exact ⟨by decide, by decide, by decide, by decide⟩

/-- Two iterations. -/
def loopInst (k : Nat) : Fin 7 := if k ≤ 5 then Fin.ofNat 7 k else Fin.ofNat 7 (k - 5)

/-- The pointer, which instruction 2 sets. -/
def loopPointer (k : Nat) : UInt64 := if k ≤ 2 then 0 else if k ≤ 7 then 4096 else 4104

/-- The activation up to the last load of the second iteration. -/
def loopRun : Execution roiLoop () where
  length := 9
  inst := loopInst
  register k _ := loopPointer k
  path := ⟨rfl, show ∀ k < 9, loopInst (k + 1) ∈ loopSuccessors (loopInst k) by decide⟩
  keeps k hk _ hdef := by
    have hkeep : ∀ k < 9, loopInst k ≠ 2 → loopPointer (k + 1) = loopPointer k := by decide
    exact hkeep k hk fun heq => hdef (congrArg some heq.symm)

theorem skipped_touched_before_loop :
    let skip := getTouchSameObjectInsts roiLoop loopDominators [()] [loopRoi] false loopDfr
    loopRun.inst 9 ∈ skip
      ∧ ∃ k < 9, loopRun.inst k ∉ skip ∧ loopRun.register k () = loopRun.register 9 () := by
  intro skip
  have hskip : loopRun.inst 9 ∈ skip := by decide
  obtain ⟨t, v, _, k, hk, v', _, hkskip, hvalue, _⟩ :=
    skipped_touched_before (fun _ _ _ h => loop_dominates (of_decide_eq_true h))
      (fun t _ _ => loopDfr_solves t) loopRun (Nat.le_refl 9) hskip
  exact ⟨hskip, k, hk, hkskip, hvalue⟩

end Carmot.Pass
