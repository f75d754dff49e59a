/-
What the edits leave at an instruction.

An edit keeps the capture of a function in front of what uses it
(`CapturesFirst.onHooks`), so every function of the instrumented module
captures its stack first (`moduleHooks_capturesFirst`). After an
instruction the last edit is the nearest, and before one the calls of a
runtime function stand in the order of their edits, as far as the edits
that go elsewhere insert no such call.
-/
import Carmot.Pass.Proofs.Reports

namespace Carmot.Pass

variable {Func Block Inst Value State : Type}

-- ==================================================== the code of the edits

namespace CapturesFirst

theorem append_right {as : List (Added Value)} (has : CapturesFirst as)
    (insts : List (Added Value)) : CapturesFirst (as ++ insts) := by
  obtain ⟨as₁, a, as₂, rfl, hnot, ha, huses⟩ := has
  exact ⟨as₁, a, as₂ ++ insts, by rw [List.append_assoc]; rfl, hnot, ha, huses⟩

/-- Code that does not use the capture may come first. -/
theorem cons {as : List (Added Value)} (has : CapturesFirst as) {x : Added Value}
    (hx : x.usesCallstack = false) : CapturesFirst (x :: as) := by
  by_cases hcall : x.isCallstack = true
  · refine ⟨[], x, as, rfl, fun _ hy => absurd hy List.not_mem_nil, hcall, ?_⟩
    intro y hy
    rw [List.mem_singleton.mp hy]
    exact hx
  · obtain ⟨as₁, a, as₂, rfl, hnot, ha, huses⟩ := has
    refine ⟨x :: as₁, a, as₂, rfl, ?_, ha, ?_⟩
    · intro y hy
      rcases List.mem_cons.mp hy with rfl | hy
      · exact Bool.not_eq_true _ ▸ hcall
      · exact hnot y hy
    · intro y hy
      rcases List.mem_cons.mp hy with rfl | hy
      · exact hx
      · exact huses y hy

theorem splice {as : List (Added Value)} (has : CapturesFirst as) (insts : List (Added Value)) :
    CapturesFirst (spliceAt insts false Added.isCallstack as) := by
  obtain ⟨as₁, a, as₂, rfl, hnot, ha, huses⟩ := has
  rw [spliceAt_append insts false Added.isCallstack ha as₂ hnot]
  exact ⟨as₁, a, insts ++ as₂, rfl, hnot, ha, huses⟩

end CapturesFirst

/-- Nothing that uses the capture comes in front of it. -/
def Edit.Orderly (P : Code Func Block Inst) (e : Edit Func Block Inst Value) : Prop :=
  match e.place with
  | .firstInsertionPt b => ∀ f ∈ P.functions, b ≠ P.entryBlock f
  | .front _ => ∃ a, e.insts = [a] ∧ a.usesCallstack = false
  | .before _ | .after _ | .back _ | .behindCallstack => True

/-- The instructions that are instrumented with code after them, when
they are no invokes. -/
def Visited.insts (V : Visited Func Inst Value) : List Inst :=
  (V.allocations.filterMap AllocEntry.inst) ++ (V.callocs.map CallocEntry.inst)
    ++ (V.reallocs.map ReallocEntry.inst) ++ (V.unknowns.map UnknownEntry.inst)
    ++ (V.accesses.map AccessEntry.inst) ++ (V.deallocs.map Prod.fst)

/-- Calls into the module are of its functions, and the visitor has
collected calls of library functions and no others. -/
structure Visited.Library (P : Code Func Block Inst) (m : Meaning Func Block Inst Value State)
    (V : Visited Func Inst Value) : Prop where
  functions : ∀ i s f, (m.exec i s).2 = .call f → f ∈ P.functions
  collected : ∀ i ∈ V.insts, ∀ s f, (m.exec i s).2 ≠ .call f

section Orderly

variable {P : Code Func Block Inst}

theorem firstInsertionPt_inj {b b' : Block}
    (heq : P.firstInsertionPt b = P.firstInsertionPt b') : b = b' := by
  have hmem : ∀ b, P.getParent (P.firstInsertionPt b) = b := by
    intro b
    obtain ⟨body, hb⟩ := P.insts_heads b
    apply (P.mem_insts b _).mp
    rw [hb]
    exact List.mem_append_right _ (List.mem_cons_self ..)
  rw [← hmem b, ← hmem b', heq]

theorem orderly_checkedPlace (i : Inst) (insts : List (Added Value)) :
    Edit.Orderly P ⟨checkedPlace P (.inst i), insts⟩ := by
  unfold checkedPlace
  dsimp only
  split
  · next normalDest unwindDest hk =>
      exact fun f hf => (P.dests_entry i normalDest unwindDest hk f hf).1
  · split <;> exact True.intro

theorem orderly_frameEdits (o : InsertionOptions) :
    ∀ e ∈ (frameEdits P o : List (Edit Func Block Inst Value)), e.Orderly P := by
  intro e he
  rcases List.mem_cons.mp he with rfl | he
  · refine ⟨_, rfl, ?_⟩
    apply List.any_eq_false.mpr
    intro v hv
    obtain ⟨b, -, rfl⟩ := List.mem_map.mp hv
    exact Bool.false_ne_true
  · obtain ⟨i, -, rfl⟩ := List.mem_map.mp he
    exact True.intro

theorem orderly_callstackEdits [DecidableEq Func] (unique : List Func) :
    ∀ e ∈ (callstackEdits P unique : List (Edit Func Block Inst Value)), e.Orderly P := by
  intro e he
  obtain ⟨f, -, rfl⟩ := List.mem_map.mp he
  refine ⟨_, rfl, ?_⟩
  unfold callstackCall
  split <;> rfl

theorem orderly_instrumentEdits (o : InsertionOptions) (V : Visited Func Inst Value) :
    ∀ e ∈ instrumentEdits P o V, e.Orderly P := by
  intro e he
  unfold instrumentEdits at he
  simp only [List.mem_append, List.mem_map, List.mem_flatMap] at he
  rcases he with ((((((he | he) | he) | he) | he) | he) | he) | he
  · obtain ⟨a, -, rfl⟩ := he
    cases a.inst with
    | none => exact True.intro
    | some i => exact orderly_checkedPlace i _
  · obtain ⟨a, -, rfl⟩ := he
    exact orderly_checkedPlace _ _
  · obtain ⟨a, -, rfl⟩ := he
    exact orderly_checkedPlace _ _
  · split at he
    · cases he
    · obtain ⟨a, -, he⟩ := List.mem_flatMap.mp he
      rcases List.mem_cons.mp he with rfl | he
      · exact True.intro
      · rw [List.mem_singleton.mp he]
        exact orderly_checkedPlace _ _
  · obtain ⟨a, -, rfl⟩ := he
    exact orderly_checkedPlace _ _
  · obtain ⟨d, -, rfl⟩ := he
    exact True.intro
  · obtain ⟨i, -, he⟩ := he
    obtain ⟨allocaInst, -, rfl⟩ := List.mem_map.mp he
    exact True.intro
  · obtain ⟨i, -, he⟩ := he
    unfold invokeEdits at he
    split at he
    · obtain ⟨allocaInst, -, rfl⟩ := List.mem_map.mp he
      exact True.intro
    · cases he

variable [DecidableEq Inst]

/-- An edit leaves the capture of a function where it is. -/
theorem CapturesFirst.onHooks {h : Hooks Inst Value} {f : Func} (hf : f ∈ P.functions)
    (hfirst : CapturesFirst (h.before (P.firstInsertionPt (P.entryBlock f))))
    {e : Edit Func Block Inst Value} (he : e.Orderly P) :
    CapturesFirst ((Edit.onHooks P h e).before (P.firstInsertionPt (P.entryBlock f))) := by
  have hbefore : ∀ {i : Inst} {g : List (Added Value) → List (Added Value)},
      (P.firstInsertionPt (P.entryBlock f) = i → CapturesFirst (g (h.before i))) →
        CapturesFirst ((h.updateBefore i g).before (P.firstInsertionPt (P.entryBlock f))) := by
    intro i g hg
    by_cases heq : P.firstInsertionPt (P.entryBlock f) = i
    · have hself := hg heq
      rw [heq, h.updateBefore_self]
      exact hself
    · rw [(h.sameBut_updateBefore i g).before _ heq]
      exact hfirst
  obtain ⟨place, insts⟩ := e
  cases place with
  | before i => exact @hbefore i (· ++ insts) fun heq => (heq ▸ hfirst).append_right insts
  | after i => exact hfirst
  | firstInsertionPt b =>
      exact hbefore fun heq => absurd (firstInsertionPt_inj heq).symm (he f hf)
  | front f' =>
      obtain ⟨a, rfl, ha⟩ := he
      exact @hbefore _ ([a] ++ ·) fun heq => (heq ▸ hfirst).cons ha
  | back b => exact @hbefore _ (· ++ insts) fun heq => (heq ▸ hfirst).append_right insts
  | behindCallstack => exact hbefore fun heq => (heq ▸ hfirst).splice insts

theorem CapturesFirst.applyHooks {f : Func} (hf : f ∈ P.functions)
    (es : List (Edit Func Block Inst Value)) : ∀ {h : Hooks Inst Value},
    CapturesFirst (h.before (P.firstInsertionPt (P.entryBlock f))) → (∀ e ∈ es, e.Orderly P) →
      CapturesFirst ((applyHooks P es h).before (P.firstInsertionPt (P.entryBlock f))) := by
  induction es with
  | nil => exact fun hfirst _ => hfirst
  | cons e es ih =>
      intro h hfirst hes
      exact ih (hfirst.onHooks hf (hes e (List.mem_cons_self ..)))
        fun e' he' => hes e' (List.mem_cons_of_mem _ he')

end Orderly

-- ========================================================= the edits' code

section Around

variable [DecidableEq Inst] (P : Code Func Block Inst)

/-- What an edit puts after an instruction. -/
def Edit.after (i : Inst) (e : Edit Func Block Inst Value) : List (Added Value) :=
  match e.place with
  | .after j => if j = i then e.insts else []
  | _ => []

/-- What an edit puts right before an instruction, behind what is
there. -/
def Edit.before (i : Inst) (e : Edit Func Block Inst Value) : List (Added Value) :=
  match e.place with
  | .before j => if j = i then e.insts else []
  | .back b => if P.back b = i then e.insts else []
  | _ => []

variable {P}

theorem after_onHooks (i : Inst) (h : Hooks Inst Value) (e : Edit Func Block Inst Value) :
    (Edit.onHooks P h e).after i = e.after i ++ h.after i := by
  obtain ⟨place, insts⟩ := e
  cases place with
  | after j =>
      show Function.update h.after j (insts ++ h.after j) i = (if j = i then insts else []) ++ _
      by_cases heq : j = i
      · subst heq
        rw [Function.update_self, if_pos rfl]
      · rw [Function.update_of_ne (Ne.symm heq), if_neg heq, List.nil_append]
  | before j | firstInsertionPt b | front f | back b | behindCallstack => rfl

/-- The last edit is next to the instruction. -/
theorem after_applyHooks (i : Inst) (es : List (Edit Func Block Inst Value)) :
    ∀ h : Hooks Inst Value,
      (applyHooks P es h).after i = es.reverse.flatMap (Edit.after i) ++ h.after i := by
  induction es with
  | nil => exact fun _ => rfl
  | cons e es ih =>
      intro h
      refine (ih (Edit.onHooks P h e)).trans ?_
      rw [after_onHooks, List.reverse_cons, List.flatMap_append, List.flatMap_singleton,
        List.append_assoc]

/-- Is it a call of one of these functions? -/
def Added.isCallOf (K : Callee → Bool) : Added Value → Bool
  | .call callee _ => K callee
  | .cast _ => false

theorem filter_splice (K : Callee → Bool) {insts : List (Added Value)}
    (hinsts : insts.filter (Added.isCallOf K) = []) (is : Added Value → Bool)
    (as : List (Added Value)) :
    (spliceAt insts false is as).filter (Added.isCallOf K) = as.filter (Added.isCallOf K) := by
  induction as with
  | nil => rfl
  | cons a as ih =>
      rw [spliceAt]
      by_cases ha : is a = true
      · simp only [if_pos ha, Bool.false_eq_true, if_false, List.filter_cons, List.filter_append,
          hinsts, List.nil_append]
      · rw [if_neg ha, List.filter_cons, List.filter_cons, ih]

/-- The edits that do not go right before or after an instruction
insert no call of the functions. -/
def Edit.Apart (K : Callee → Bool) (e : Edit Func Block Inst Value) : Prop :=
  match e.place with
  | .before _ | .after _ | .back _ => True
  | .firstInsertionPt _ | .front _ | .behindCallstack =>
      e.insts.filter (Added.isCallOf K) = []

theorem filter_before_onHooks (K : Callee → Bool) (i : Inst) (h : Hooks Inst Value)
    {e : Edit Func Block Inst Value} (he : e.Apart K) :
    ((Edit.onHooks P h e).before i).filter (Added.isCallOf K)
      = (h.before i).filter (Added.isCallOf K)
        ++ (Edit.before P i e).filter (Added.isCallOf K) := by
  have hupdate : ∀ (j : Inst) (g : List (Added Value) → List (Added Value))
      (insts : List (Added Value)),
      (∀ as, (g as).filter (Added.isCallOf K)
        = as.filter (Added.isCallOf K) ++ insts.filter (Added.isCallOf K)) →
      ((h.updateBefore j g).before i).filter (Added.isCallOf K)
        = (h.before i).filter (Added.isCallOf K)
          ++ (if j = i then insts else []).filter (Added.isCallOf K) := by
    intro j g insts hg
    by_cases heq : j = i
    · subst heq
      rw [h.updateBefore_self, hg, if_pos rfl]
    · rw [(h.sameBut_updateBefore j g).before i (Ne.symm heq), if_neg heq, List.filter_nil,
        List.append_nil]
  -- code that is put elsewhere has no such call
  have hapart : ∀ (j : Inst) (g : List (Added Value) → List (Added Value)),
      (∀ as, (g as).filter (Added.isCallOf K) = as.filter (Added.isCallOf K)) →
      ((h.updateBefore j g).before i).filter (Added.isCallOf K)
        = (h.before i).filter (Added.isCallOf K)
          ++ ([] : List (Added Value)).filter (Added.isCallOf K) := by
    intro j g hg
    have hnone := hupdate j g [] fun as => by
      rw [hg, List.filter_nil, List.append_nil]
    rw [ite_self] at hnone
    exact hnone
  obtain ⟨place, insts⟩ := e
  have hfront : insts.filter (Added.isCallOf K) = [] → ∀ as : List (Added Value),
      (insts ++ as).filter (Added.isCallOf K) = as.filter (Added.isCallOf K) := by
    intro hinsts as
    rw [List.filter_append, hinsts, List.nil_append]
  cases place with
  | before j => exact hupdate j (· ++ insts) insts fun as => List.filter_append ..
  | back b => exact hupdate (P.back b) (· ++ insts) insts fun as => List.filter_append ..
  | after j => exact (List.append_nil _).symm
  | firstInsertionPt b => exact hapart _ (insts ++ ·) (hfront he)
  | front f => exact hapart _ (insts ++ ·) (hfront he)
  | behindCallstack => exact hapart _ _ (filter_splice K he _)

/-- The first edit comes first. -/
theorem filter_before_applyHooks (K : Callee → Bool) (i : Inst)
    (es : List (Edit Func Block Inst Value)) :
    ∀ h : Hooks Inst Value, (∀ e ∈ es, e.Apart K) →
      ((applyHooks P es h).before i).filter (Added.isCallOf K)
        = (h.before i).filter (Added.isCallOf K)
          ++ es.flatMap fun e => (Edit.before P i e).filter (Added.isCallOf K) := by
  induction es with
  | nil =>
      intro h _
      rw [List.flatMap_nil, List.append_nil]
      rfl
  | cons e es ih =>
      intro h hes
      refine (ih _ fun e' he' => hes e' (List.mem_cons_of_mem _ he')).trans ?_
      rw [filter_before_onHooks K i h (hes e (List.mem_cons_self ..)), List.append_assoc,
        List.flatMap_cons]

end Around

-- ================================================================= the pass

section Module

variable {P : Code Func Block Inst}

theorem checkedPlace_after {i j : Inst} (hplace : checkedPlace P (.inst j) = .after i) : j = i := by
  unfold checkedPlace at hplace
  dsimp only at hplace
  split at hplace
  · cases hplace
  · split at hplace
    · cases hplace
    · injection hplace

/-- Code comes after the instructions the visitor has collected. -/
theorem mem_insts_of_after [DecidableEq Func] (o : InsertionOptions) (V : Visited Func Inst Value)
    {e : Edit Func Block Inst Value} (he : e ∈ moduleEdits P o V) {i : Inst}
    (hplace : e.place = .after i) : i ∈ V.insts := by
  unfold Visited.insts
  unfold moduleEdits at he
  rcases List.mem_append.mp he with he | he
  · split at he
    · cases he
    · rcases List.mem_append.mp he with he | he
      · obtain ⟨f, -, rfl⟩ := List.mem_map.mp he
        cases hplace
      · unfold instrumentEdits at he
        simp only [List.mem_append, List.mem_map, List.mem_flatMap] at he
        simp only [List.mem_append, List.mem_map, List.mem_filterMap]
        rcases he with ((((((he | he) | he) | he) | he) | he) | he) | he
        · obtain ⟨a, ha, rfl⟩ := he
          cases hinst : a.inst with
          | none =>
              rw [hinst] at hplace
              cases hplace
          | some j =>
              rw [hinst] at hplace
              have heq := checkedPlace_after hplace
              exact .inl (.inl (.inl (.inl (.inl ⟨a, ha, by rw [hinst, heq]⟩))))
        · obtain ⟨a, ha, rfl⟩ := he
          exact .inl (.inl (.inl (.inl (.inr ⟨a, ha, checkedPlace_after hplace⟩))))
        · obtain ⟨a, ha, rfl⟩ := he
          exact .inl (.inl (.inl (.inr ⟨a, ha, checkedPlace_after hplace⟩)))
        · split at he
          · cases he
          · obtain ⟨a, ha, he⟩ := List.mem_flatMap.mp he
            rcases List.mem_cons.mp he with rfl | he
            · cases hplace
            · rw [List.mem_singleton.mp he] at hplace
              exact .inl (.inl (.inr ⟨a, ha, checkedPlace_after hplace⟩))
        · obtain ⟨a, ha, rfl⟩ := he
          exact .inl (.inr ⟨a, ha, checkedPlace_after hplace⟩)
        · obtain ⟨d, hd, rfl⟩ := he
          injection hplace with hplace
          exact .inr ⟨d, hd, hplace⟩
        · obtain ⟨j, -, he⟩ := he
          obtain ⟨allocaInst, -, rfl⟩ := List.mem_map.mp he
          cases hplace
        · obtain ⟨j, -, he⟩ := he
          unfold invokeEdits at he
          split at he
          · obtain ⟨allocaInst, -, rfl⟩ := List.mem_map.mp he
            cases hplace
          · cases he
  · rcases List.mem_cons.mp he with rfl | he
    · cases hplace
    · obtain ⟨j, -, rfl⟩ := List.mem_map.mp he
      cases hplace

variable [DecidableEq Func] [DecidableEq Inst]

theorem Visited.Library.callsWell {m : Meaning Func Block Inst Value State}
    {V : Visited Func Inst Value} (hlib : V.Library P m) (o : InsertionOptions) :
    m.CallsWell P (moduleHooks P o V) := by
  refine ⟨hlib.functions, ?_⟩
  intro i s f hcall
  unfold moduleHooks
  rw [after_applyHooks]
  show _ ++ [] = []
  rw [List.append_nil]
  apply List.flatMap_eq_nil_iff.mpr
  intro e he
  unfold Edit.after
  split
  · next j hplace =>
      apply if_neg
      rintro rfl
      exact hlib.collected j (mem_insts_of_after o V (List.mem_reverse.mp he) hplace) s f hcall
  · rfl

theorem callstackCall_usesCallstack (index : Option Nat) (size : Nat) :
    (callstackCall index size : Added Value).usesCallstack = false := by
  cases index <;> rfl

/-- Every function captures its stack first. -/
theorem moduleHooks_capturesFirst {o : InsertionOptions} (hall : o.disableAllInstrumentation = false)
    (V : Visited Func Inst Value) {f : Func} (hf : f ∈ P.functions) :
    CapturesFirst ((moduleHooks P o V).before (P.firstInsertionPt (P.entryBlock f))) := by
  obtain ⟨fs₁, fs₂, hfs⟩ := List.append_of_mem hf
  let edit := fun g : Func => (⟨.front g,
    [callstackCall ((uniqueIndices V.uniqueCallstackFunctions 0 P.functions).lookup g)
      V.uniqueCallstackFunctions.length]⟩ : Edit Func Block Inst Value)
  have hedits : moduleEdits P o V = fs₁.map edit ++ edit f ::
      (fs₂.map edit ++ (instrumentEdits P o V ++ frameEdits P o)) := by
    unfold moduleEdits callstackEdits
    rw [hall, if_neg Bool.false_ne_true, List.append_assoc]
    show P.functions.map edit ++ _ = _
    rw [hfs, List.map_append, List.map_cons, List.append_assoc]
    rfl
  have horderly : ∀ e ∈ fs₂.map edit ++ (instrumentEdits P o V ++ frameEdits P o), e.Orderly P := by
    intro e he
    rcases List.mem_append.mp he with he | he
    · obtain ⟨g, -, rfl⟩ := List.mem_map.mp he
      exact ⟨_, rfl, callstackCall_usesCallstack _ _⟩
    · rcases List.mem_append.mp he with he | he
      · exact orderly_instrumentEdits o V e he
      · exact orderly_frameEdits o e he
  unfold moduleHooks
  rw [hedits]
  unfold applyHooks
  rw [List.foldl_append, List.foldl_cons]
  apply CapturesFirst.applyHooks hf _ ?_ horderly
  show CapturesFirst ((Hooks.updateBefore _ _ _).before _)
  rw [Hooks.updateBefore_self]
  refine ⟨[], _, _, rfl, fun _ hx => absurd hx List.not_mem_nil, callstackCall_isCallstack _ _, ?_⟩
  intro x hx
  rw [List.mem_singleton.mp hx]
  exact callstackCall_usesCallstack _ _

end Module

end Carmot.Pass
