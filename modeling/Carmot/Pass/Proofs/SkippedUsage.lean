/-
The touch-same-object optimisation changes no class.

What a ROI does to an address is read off the accesses that are made
while it is open, invocation by invocation. A skipped load (store)
repeats one of the same invocation that is not skipped, so the ROI has
the same history without it, as far as the class goes
(`skip_keeps_class`). Other functions may access the address between
any two instructions.
-/
import Mathlib.Order.Fin.Basic
import Carmot.Lib.Repeats
import Carmot.Pass.Proofs.TouchSameObject
import Carmot.Texas.Trace

namespace Carmot.Pass

open Carmot.Lib (CellEvent Iterations RepeatsAccess Rw)
open Carmot.Texas (classOf)

variable {Func Inst Value : Type}

-- =============================================================== the trace

/-- The kind of access a map is about. -/
def Touch.rw : Touch → Rw
  | .load => .read
  | .store => .write

/-- The access an instruction makes, and through which register. -/
def InstKind.access? : InstKind Value → Option (Rw × Value)
  | .load ptr => some (.read, ptr)
  | .store ptr => some (.write, ptr)
  | .other => none

theorem access?_of_touched {k : InstKind Value} {t : Touch} {v : Value}
    (h : k.touched t = some v) : k.access? = some (t.rw, v) := by
  cases k with
  | load ptr => cases t with
      | load =>
          injection h with h
          rw [h]
          rfl
      | store => cases h
  | store ptr => cases t with
      | load => cases h
      | store =>
          injection h with h
          rw [h]
          rfl
  | other => cases t with
      | load => cases h
      | store => cases h

namespace Execution

variable [DecidableEq Inst] {M : Module Func Inst Value} {f : Func} (e : Execution M f)

/-- The access to `p` of a step, if the instruction is instrumented. -/
def ownAccess (instrumented : Inst → Bool) (p : UInt64) (k : Nat) : List CellEvent :=
  match (M.kind (e.inst k)).access? with
  | some (rw, v) =>
      if e.register k v = p ∧ instrumented (e.inst k) = true then [.access rw] else []
  | none => []

/-- What a step is to a ROI of the function and an address; `elsewhere`
are the accesses the functions it calls make to the address. -/
def cellEvents (roi : ROI M) (instrumented : Inst → Bool) (elsewhere : Nat → List Rw) (p : UInt64)
    (k : Nat) : List CellEvent :=
  if e.inst k = roi.start then [.enter]
  else if e.inst k ∈ roi.stops then [.leave]
  else e.ownAccess instrumented p k ++ (elsewhere k).map .access

/-- The first `n` steps. -/
def cellTrace (roi : ROI M) (instrumented : Inst → Bool) (elsewhere : Nat → List Rw) (p : UInt64)
    (n : Nat) : List CellEvent :=
  (List.range n).flatMap (e.cellEvents roi instrumented elsewhere p)

variable {e} {roi : ROI M} {instrumented : Inst → Bool} {elsewhere : Nat → List Rw} {p : UInt64}

omit [DecidableEq Inst] in
theorem ownAccess_congr {instrumented' : Inst → Bool} {k : Nat}
    (heq : instrumented (e.inst k) = instrumented' (e.inst k)) :
    e.ownAccess instrumented p k = e.ownAccess instrumented' p k := by
  unfold ownAccess
  rw [heq]

theorem cellTrace_succ (n : Nat) :
    e.cellTrace roi instrumented elsewhere p (n + 1)
      = e.cellTrace roi instrumented elsewhere p n
        ++ e.cellEvents roi instrumented elsewhere p n := by
  unfold cellTrace
  rw [List.range_succ, List.flatMap_append, List.flatMap_singleton]

end Execution

-- ================================================ within one invocation

section Current

open Carmot.Lib.Iterations

/-- Accesses leave what the invocation has done before. -/
theorem repeatsAccess_append {evs more : List CellEvent} {rw : Rw}
    (hmore : ∀ ev ∈ more, ev ≠ .enter) (hrep : RepeatsAccess evs rw) :
    RepeatsAccess (evs ++ more) rw := by
  induction more using List.reverseRecOn with
  | nil =>
      rw [List.append_nil]
      exact hrep
  | append_singleton more ev ih =>
      have hbefore := ih fun ev' hev' => hmore ev' (List.mem_append_left _ hev')
      rw [← List.append_assoc]
      intro it hit
      rw [after_concat] at hit
      cases ev with
      | enter => exact absurd rfl (hmore .enter (by simp))
      | leave => cases hit
      | access rw' =>
          obtain ⟨it', hit', rfl⟩ := Option.map_eq_some_iff.mp hit
          exact List.mem_append_left _ (hbefore it' hit')

theorem repeatsAccess_concat (evs : List CellEvent) (rw : Rw) :
    RepeatsAccess (evs ++ [.access rw]) rw := by
  intro it hit
  rw [after_concat] at hit
  obtain ⟨it', -, rfl⟩ := Option.map_eq_some_iff.mp hit
  exact List.mem_append_right _ (List.mem_singleton.mpr rfl)

variable [DecidableEq Inst] {M : Module Func Inst Value} {f : Func} {e : Execution M f}
  {roi : ROI M} {instrumented : Inst → Bool} {elsewhere : Nat → List Rw} {p : UInt64}

/-- Accesses of a step are no starts. -/
theorem ne_enter_of_mem_cellEvents {k : Nat} (hk : e.inst k ≠ roi.start) :
    ∀ ev ∈ e.cellEvents roi instrumented elsewhere p k, ev ≠ .enter := by
  intro ev hev heq
  subst heq
  unfold Execution.cellEvents at hev
  rw [if_neg hk] at hev
  split at hev
  · cases List.mem_singleton.mp hev
  · rcases List.mem_append.mp hev with hev | hev
    · unfold Execution.ownAccess at hev
      split at hev
      · split at hev
        · cases List.mem_singleton.mp hev
        · cases hev
      · cases hev
    · obtain ⟨rw, -, heq⟩ := List.mem_map.mp hev
      cases heq

/-- An instrumented access is repeated until the ROI is started
again. -/
theorem repeatsAccess_cellTrace {t : Touch} {v : Value} {k n : Nat} (hkn : k < n)
    (htouched : (M.kind (e.inst k)).touched t = some v) (hvalue : e.register k v = p)
    (hinst : instrumented (e.inst k) = true) (hstart : ∀ m, k ≤ m → m < n → e.inst m ≠ roi.start) :
    RepeatsAccess (e.cellTrace roi instrumented elsewhere p n) t.rw := by
  induction n, hkn using Nat.le_induction with
  | base =>
      rw [Execution.cellTrace_succ]
      unfold Execution.cellEvents
      rw [if_neg (hstart k (Nat.le_refl k) (Nat.lt_succ_self k))]
      split
      · intro it hit
        rw [after_concat] at hit
        cases hit
      · have hown : e.ownAccess instrumented p k = [.access t.rw] := by
          unfold Execution.ownAccess
          rw [access?_of_touched htouched]
          exact if_pos ⟨hvalue, hinst⟩
        rw [hown, ← List.append_assoc]
        apply repeatsAccess_append ?_ (repeatsAccess_concat _ _)
        intro ev hev heq
        obtain ⟨rw, -, rfl⟩ := List.mem_map.mp hev
        cases heq
  | succ n hkn ih =>
      have hbefore := ih fun m hkm hmn => hstart m hkm (by omega)
      rw [Execution.cellTrace_succ]
      exact repeatsAccess_append
        (ne_enter_of_mem_cellEvents (hstart n (by omega) (Nat.lt_succ_self n))) hbefore

end Current

-- ============================================================== skipping

section Skip

variable [DecidableEq Func] [DecidableEq Value] {M : Module Func Inst Value}
  {dominators : Func → DominatorSummary Inst} {functionsToRunDFA : List Func} {rois : List (ROI M)}
  {funcToDfr : Touch → Func → DataFlowResult Inst Value} {f : Func}

/-- What makes an access redundant: one through the same register that
is not skipped, with no start of a ROI of the function since. -/
theorem exists_unskipped
    (hdt : ∀ f a b, (dominators f).dt a b = true → (M.graph f).Dominates a b)
    (hdfr : ∀ t, ∀ f ∈ functionsToRunDFA,
      (funcToDfr t f).Solves M (instToObjMap M dominators functionsToRunDFA rois false t) f)
    (e : Execution M f) {n : Nat} (hn : n ≤ e.length)
    (hskip : e.inst n ∈ getTouchSameObjectInsts M dominators functionsToRunDFA rois false funcToDfr) :
    ∃ t v, (M.kind (e.inst n)).touched t = some v
      ∧ ∃ k < n, (M.kind (e.inst k)).touched t = some v
        ∧ e.inst k ∉ getTouchSameObjectInsts M dominators functionsToRunDFA rois false funcToDfr
        ∧ e.register k v = e.register n v
        ∧ ∀ roi ∈ rois, M.getFunction roi.start = f →
            ∀ m, k ≤ m → m < n → e.inst m ≠ roi.start := by
  have hfunc : M.getFunction (e.inst n) = f := e.getFunction_inst hn
  obtain ⟨t, ht⟩ := mem_getTouchSameObjectInsts.mp hskip
  obtain ⟨hf, v, hmap, hin⟩ := mem_getInstsToSkip.mp ht
  rw [hfunc] at hf hin
  -- the first use of the register after the last cut point
  obtain ⟨k, hk, ⟨hkfunc, hkmap⟩, hkin, hcut⟩ :=
    (hdfr t f hf).mustSolution.exists_first_gen (e.path.take hn)
      (show v ∈ {v | M.getFunction (e.inst n) = f ∧ v ∈ (funcToDfr t f).inSet (e.inst n)} from
        ⟨hfunc, hin⟩)
      (cutPoints M rois f v) (by
        intro c hc g hg
        have hdom := cutPoints_dominate hdt (i := g) (by rw [hg.1]; exact hc) hg.2
        rw [hg.1] at hdom
        exact hdom)
  have hktouched := (instToObjMap_eq_some hkmap).1
  refine ⟨t, v, (instToObjMap_eq_some hmap).1, k, hk, hktouched, ?_, ?_, ?_⟩
  · intro hkskip
    obtain ⟨t', ht'⟩ := mem_getTouchSameObjectInsts.mp hkskip
    obtain ⟨_, v', hkmap', hkin'⟩ := mem_getInstsToSkip.mp ht'
    have hsame : t = t' := touch_unique hktouched (instToObjMap_eq_some hkmap').1
    subst hsame
    obtain rfl : v = v' := Option.some_inj.mp (hkmap.symm.trans hkmap')
    rw [hkfunc] at hkin'
    exact hkin ⟨hkfunc, hkin'⟩
  · symm
    apply e.register_eq (Nat.le_of_lt hk) hn
    intro m hkm hmn hdef
    have hlt := hcut m hmn (Or.inl hdef)
    omega
  · intro roi hroi hroifunc m hkm hmn heq
    have hlt := hcut m hmn (Or.inr ⟨roi, hroi, hroifunc, heq.symm⟩)
    omega

variable [DecidableEq Inst]

/-- The trace of what is instrumented is the whole one without repeated
accesses. -/
theorem thinned_cellTrace
    (hdt : ∀ f a b, (dominators f).dt a b = true → (M.graph f).Dominates a b)
    (hdfr : ∀ t, ∀ f ∈ functionsToRunDFA,
      (funcToDfr t f).Solves M (instToObjMap M dominators functionsToRunDFA rois false t) f)
    (e : Execution M f) {roi : ROI M} (hroi : roi ∈ rois) (hroifunc : M.getFunction roi.start = f)
    (elsewhere : Nat → List Rw) (p : UInt64) (n : Nat) (hn : n ≤ e.length + 1) :
    let skip := getTouchSameObjectInsts M dominators functionsToRunDFA rois false funcToDfr
    Carmot.Lib.Thinned (e.cellTrace roi (fun _ => true) elsewhere p n)
      (e.cellTrace roi (fun i => decide (i ∉ skip)) elsewhere p n) := by
  intro skip
  induction n with
  | zero => exact .nil
  | succ n ih =>
      have hbefore := ih (by omega)
      rw [Execution.cellTrace_succ, Execution.cellTrace_succ]
      unfold Execution.cellEvents
      by_cases hstart : e.inst n = roi.start
      · rw [if_pos hstart, if_pos hstart]
        exact hbefore.keeps [.enter]
      · by_cases hstop : e.inst n ∈ roi.stops
        · rw [if_neg hstart, if_neg hstart, if_pos hstop, if_pos hstop]
          exact hbefore.keeps [.leave]
        · rw [if_neg hstart, if_neg hstart, if_neg hstop, if_neg hstop, ← List.append_assoc,
            ← List.append_assoc]
          apply Carmot.Lib.Thinned.keeps
          by_cases hskip : e.inst n ∈ skip
          · -- the access is skipped
            obtain ⟨t, v, htouched, k, hk, hktouched, hkskip, hvalue, hopen⟩ :=
              exists_unskipped hdt hdfr e (Nat.le_of_lt_succ hn) hskip
            have hdropped : e.ownAccess (fun i => decide (i ∉ skip)) p n = [] := by
              unfold Execution.ownAccess
              rw [access?_of_touched htouched]
              exact if_neg fun hboth => absurd (of_decide_eq_true hboth.2) (not_not.mpr hskip)
            rw [hdropped, List.append_nil]
            by_cases hp : e.register n v = p
            · have hown : e.ownAccess (fun _ => true) p n = [.access t.rw] := by
                unfold Execution.ownAccess
                rw [access?_of_touched htouched]
                exact if_pos ⟨hp, rfl⟩
              rw [hown]
              apply hbefore.drop
              exact repeatsAccess_cellTrace hk hktouched (hvalue.trans hp)
                (decide_eq_true hkskip) (hopen roi hroi hroifunc)
            · have hown : e.ownAccess (fun _ => true) p n = [] := by
                unfold Execution.ownAccess
                rw [access?_of_touched htouched]
                exact if_neg fun hboth => hp hboth.1
              rw [hown, List.append_nil]
              exact hbefore
          · -- the access is instrumented
            have hown : e.ownAccess (fun i => decide (i ∉ skip)) p n
                = e.ownAccess (fun _ => true) p n :=
              Execution.ownAccess_congr (decide_eq_true hskip)
            rw [hown]
            exact hbefore.keeps _

end Skip

end Carmot.Pass
