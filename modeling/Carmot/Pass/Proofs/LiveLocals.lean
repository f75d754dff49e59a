/-
The stack variables that are live when a ROI begins have been reported.

The tool tags the functions from which start tracking is reachable in
the call graph. Why that is enough is a fact about the stack: every
frame waits for the one on top of it, so the functions on the stack are
a path of the call graph (`Stacked`), and if the innermost function
reaches start tracking, they all do. All of them are tagged, so the
visitor has an entry for each of their variables, and what runs of a
variable in a frame is reported with that frame's call stack
(`live_locals_reported`).
-/
import Mathlib.Data.List.Chain
import Carmot.Pass.Proofs.Positions
import Carmot.Pass.Proofs.TagFunctions

namespace Carmot.Pass

open StateTransition
open Relation (ReflTransGen)

variable {Func Block Inst Value State : Type}

-- ============================================================ the stack

/-- The function of an instruction. -/
def Code.functionOf (P : Code Func Block Inst) (i : Inst) : Func := P.getFunction (P.getParent i)

/-- Control goes along the call graph: a jump stays in its function, a
call is an edge, and what makes a variable is followed by what comes
next. -/
structure Meaning.Along (m : Meaning Func Block Inst Value State) (P : Code Func Block Inst)
    (info : ModuleInfo Func Inst Value) (G : CallGraph Func) : Prop where
  goto : ∀ i s b, (m.exec i s).2 = .goto b → P.getFunction b = P.functionOf i
  dests : ∀ i normalDest unwindDest, P.flowKind i = .invoke normalDest unwindDest →
    P.getFunction normalDest = P.functionOf i ∧ P.getFunction unwindDest = P.functionOf i
  call : ∀ i s f, (m.exec i s).2 = .call f → f ∈ P.functions ∧ G.Calls (P.functionOf i) f
  alloca : ∀ i getAllocatedType metadata,
    info.instClass i = .alloca getAllocatedType metadata → ∀ s, (m.exec i s).2 = .done

/-- Frames in their functions, each called from the one below. -/
structure Stacked (P : Code Func Block Inst) (G : CallGraph Func) (functions : Nat → Func)
    (entered : Nat) (frames : List (Frame Inst Value)) : Prop where
  number_lt : ∀ fr ∈ frames, fr.number < entered
  mem_functions : ∀ fr ∈ frames, functions fr.number ∈ P.functions
  code : ∀ fr ∈ frames, ∀ j, .code j ∈ fr.rest → P.functionOf j = functions fr.number
  chain : (frames.map fun fr => functions fr.number).IsChain fun callee caller =>
    G.Calls caller callee

theorem FlowKind.eq_of_dests {kind : FlowKind Block} {normalDest unwindDest : Block}
    (h : kind.dests = some (normalDest, unwindDest)) : kind = .invoke normalDest unwindDest := by
  cases kind <;> cases h
  rfl

namespace Stacked

variable {P : Code Func Block Inst} {G : CallGraph Func} {functions : Nat → Func} {entered : Nat}
  {fr : Frame Inst Value} {frs : List (Frame Inst Value)}

theorem nil : Stacked P G functions entered ([] : List (Frame Inst Value)) where
  number_lt _ h := absurd h List.not_mem_nil
  mem_functions _ h := absurd h List.not_mem_nil
  code _ h := absurd h List.not_mem_nil
  chain := .nil

theorem tail (h : Stacked P G functions entered (fr :: frs)) :
    Stacked P G functions entered frs where
  number_lt fr' hfr := h.number_lt fr' (List.mem_cons_of_mem fr hfr)
  mem_functions fr' hfr := h.mem_functions fr' (List.mem_cons_of_mem fr hfr)
  code fr' hfr := h.code fr' (List.mem_cons_of_mem fr hfr)
  chain := h.chain.tail

/-- A frame goes on in its function. -/
theorem goOn (h : Stacked P G functions entered (fr :: frs)) {fr' : Frame Inst Value}
    (hnumber : fr'.number = fr.number)
    (hrest : ∀ j, .code j ∈ fr'.rest → P.functionOf j = functions fr.number) :
    Stacked P G functions entered (fr' :: frs) where
  number_lt := by
    intro fr₁ hfr₁
    rcases List.mem_cons.mp hfr₁ with rfl | hfr₁
    · rw [hnumber]
      exact h.number_lt fr List.mem_cons_self
    · exact h.number_lt fr₁ (List.mem_cons_of_mem fr hfr₁)
  mem_functions := by
    intro fr₁ hfr₁
    rcases List.mem_cons.mp hfr₁ with rfl | hfr₁
    · rw [hnumber]
      exact h.mem_functions fr List.mem_cons_self
    · exact h.mem_functions fr₁ (List.mem_cons_of_mem fr hfr₁)
  code := by
    intro fr₁ hfr₁
    rcases List.mem_cons.mp hfr₁ with rfl | hfr₁
    · rw [hnumber]
      exact hrest
    · exact h.code fr₁ (List.mem_cons_of_mem fr hfr₁)
  chain := by
    have hchain := h.chain
    rw [List.map_cons] at hchain ⊢
    rw [hnumber]
    exact hchain

/-- A call opens a frame. -/
theorem enter (h : Stacked P G functions entered (fr :: frs)) {f : Func} (hf : f ∈ P.functions)
    (hcall : G.Calls (functions fr.number) f) {fr' : Frame Inst Value}
    (hnumber : fr'.number = entered) (hrest : ∀ j, .code j ∈ fr'.rest → P.functionOf j = f) :
    Stacked P G (Function.update functions entered f) (entered + 1) (fr' :: fr :: frs) := by
  have hold : ∀ fr₁ ∈ fr :: frs, Function.update functions entered f fr₁.number
      = functions fr₁.number :=
    fun fr₁ hfr₁ => Function.update_of_ne (Nat.ne_of_lt (h.number_lt fr₁ hfr₁)) ..
  have hnew : Function.update functions entered f fr'.number = f := by
    rw [hnumber, Function.update_self]
  refine ⟨?_, ?_, ?_, ?_⟩
  · intro fr₁ hfr₁
    rcases List.mem_cons.mp hfr₁ with rfl | hfr₁
    · omega
    · have hlt := h.number_lt fr₁ hfr₁
      omega
  · intro fr₁ hfr₁
    rcases List.mem_cons.mp hfr₁ with rfl | hfr₁
    · rw [hnew]
      exact hf
    · rw [hold fr₁ hfr₁]
      exact h.mem_functions fr₁ hfr₁
  · intro fr₁ hfr₁ j hj
    rcases List.mem_cons.mp hfr₁ with rfl | hfr₁
    · rw [hnew]
      exact hrest j hj
    · rw [hold fr₁ hfr₁]
      exact h.code fr₁ hfr₁ j hj
  · have hsame : ((fr :: frs).map fun fr => Function.update functions entered f fr.number)
        = (fr :: frs).map fun fr => functions fr.number := List.map_congr_left hold
    rw [List.map_cons, hnew, hsame]
    exact h.chain.cons fun g hg => by
      rw [← Option.some_inj.mp hg]
      exact hcall

/-- An exception closes frames up to an invoke. -/
theorem unwind {bc : Bitcode Block Inst Value}
    (hbc : ∀ b j, .code j ∈ bc b → P.getParent j = b)
    (hdests : ∀ i normalDest unwindDest, P.flowKind i = .invoke normalDest unwindDest →
      P.getFunction unwindDest = P.functionOf i) :
    ∀ {frs : List (Frame Inst Value)}, Stacked P G functions entered frs →
      Stacked P G functions entered (unwindFrames P bc frs) := by
  intro frs
  induction frs with
  | nil => exact fun h => h
  | cons fr frs ih =>
      intro h
      unfold unwindFrames
      split
      · next i rest hrest =>
          split
          · next normalDest unwindDest hinvoke =>
              have hkind := FlowKind.eq_of_dests hinvoke
              refine h.goOn rfl fun j hj => ?_
              unfold Code.functionOf
              rw [hbc unwindDest j hj, hdests i normalDest unwindDest hkind]
              exact h.code fr List.mem_cons_self i (by rw [hrest]; exact List.mem_cons_self)
          · exact ih h.tail
      · exact ih h.tail

/-- The functions on the stack reach the innermost one. -/
theorem reaches : ∀ {frs : List (Frame Inst Value)} {fr : Frame Inst Value},
    Stacked P G functions entered (fr :: frs) →
      ∀ fr' ∈ fr :: frs, ReflTransGen G.Calls (functions fr'.number) (functions fr.number) := by
  intro frs
  induction frs with
  | nil =>
      intro fr _ fr' hfr'
      rw [List.mem_singleton.mp hfr']
  | cons fr₁ frs ih =>
      intro fr h fr' hfr'
      rcases List.mem_cons.mp hfr' with rfl | hfr'
      · exact .refl
      · have hcall := (List.isChain_cons_cons.mp h.chain).1
        exact (ih h.tail fr' hfr').tail hcall

end Stacked

-- ============================================================== the run

/-- The frames are on a path of the call graph, and what ran in a frame
is code of its function. -/
structure Config.OnStack (c : Config Inst Value State) (P : Code Func Block Inst)
    (G : CallGraph Func) (functions : Nat → Func) : Prop where
  stacked : Stacked P G functions c.entered c.frames
  ran : ∀ number i s, .ran number i s ∈ c.log →
    number < c.entered ∧ P.functionOf i = functions number

section Run

variable {P : Code Func Block Inst} {m : Meaning Func Block Inst Value State}
  {info : ModuleInfo Func Inst Value} {G : CallGraph Func} {functions : Nat → Func}

theorem functionOf_bitcode {b : Block} {j : Inst}
    (hj : .code j ∈ (P.bitcode b : List (Instr Inst Value))) : P.getParent j = b := by
  obtain ⟨i, hi, heq⟩ := List.mem_map.mp hj
  injection heq with heq
  rw [← heq]
  exact (P.mem_insts b i).mp hi

/-- What comes next when the instruction at the head is done. -/
theorem Stacked.complete (hm : m.Along P info G) {c : Config Inst Value State}
    (h : Stacked P G functions c.entered c.frames) :
    ∃ frames, c.complete P m P.bitcode Hooks.none = { c with frames := frames }
      ∧ Stacked P G functions c.entered frames := by
  obtain ⟨frames, s, entered, log⟩ := c
  cases frames with
  | nil => exact ⟨[], rfl, .nil⟩
  | cons fr frs =>
      obtain ⟨number, callstackInst, rest⟩ := fr
      cases rest with
      | nil => exact ⟨[], rfl, .nil⟩
      | cons j rest =>
          cases j with
          | added a => exact ⟨[], rfl, .nil⟩
          | code j =>
              have hfunction : P.functionOf j = functions number :=
                h.code ⟨number, callstackInst, .code j :: rest⟩ List.mem_cons_self j
                  List.mem_cons_self
              cases hj : (P.flowKind j).dests with
              | some dests =>
                  obtain ⟨normalDest, unwindDest⟩ := dests
                  refine ⟨⟨number, callstackInst, P.bitcode normalDest⟩ :: frs,
                    complete_invoke P m P.bitcode Hooks.none hj ⟨number, callstackInst, rest⟩ rest
                      frs s entered log, h.goOn rfl fun j' hj' => ?_⟩
                  have hdest := (hm.dests j normalDest unwindDest (FlowKind.eq_of_dests hj)).1
                  rw [← functionOf_bitcode hj'] at hdest
                  exact hdest.trans hfunction
              | none =>
                  refine ⟨⟨number, callstackInst, rest⟩ :: frs, ?_, h.goOn rfl fun j' hj' => ?_⟩
                  · rw [complete_other P m P.bitcode Hooks.none hj ⟨number, callstackInst, rest⟩
                      rest frs s entered log]
                    have hnone : m.report s (⟨number, callstackInst, rest⟩ : Frame Inst Value)
                      (Hooks.none.after j) = [] := rfl
                    rw [hnone, List.append_nil]
                    rfl
                  · exact h.code _ List.mem_cons_self j' (List.mem_cons_of_mem _ hj')

/-- Control goes where an instruction of the innermost frame sends
it. -/
theorem Stacked.transfer (hm : m.Along P info G) {i : Inst} {s : State}
    {c : Config Inst Value State} {fr : Frame Inst Value} {frs : List (Frame Inst Value)}
    (hframes : c.frames = fr :: frs) (h : Stacked P G functions c.entered c.frames)
    (hi : P.functionOf i = functions fr.number) :
    ∃ frames entered functions', c.transfer P m P.bitcode Hooks.none (m.exec i s).2
        = { c with frames := frames, entered := entered }
      ∧ Stacked P G functions' entered frames ∧ c.entered ≤ entered
      ∧ ∀ number < c.entered, functions' number = functions number := by
  have hkeep : ∀ number < c.entered, functions number = functions number := fun _ _ => rfl
  obtain ⟨frames, s', entered, log⟩ := c
  dsimp only at hframes
  subst hframes
  cases ho : (m.exec i s).2 with
  | done =>
      obtain ⟨frames, heq, hstacked⟩ := Stacked.complete hm h
      exact ⟨frames, entered, functions, heq, hstacked, Nat.le_refl _, hkeep⟩
  | ret =>
      obtain ⟨frames, heq, hstacked⟩ := Stacked.complete hm
        (c := Config.leave ⟨fr :: frs, s', entered, log⟩) h.tail
      exact ⟨frames, entered, functions, heq, hstacked, Nat.le_refl _, hkeep⟩
  | goto b =>
      refine ⟨{ fr with rest := P.bitcode b } :: frs, entered, functions, rfl,
        h.goOn rfl fun j hj => ?_, Nat.le_refl _, hkeep⟩
      have hdest := hm.goto i s b ho
      rw [← functionOf_bitcode hj] at hdest
      exact hdest.trans hi
  | call f =>
      obtain ⟨hf, hcall⟩ := hm.call i s f ho
      refine ⟨⟨entered, none, P.bitcode (P.entryBlock f)⟩ :: fr :: frs, entered + 1,
        Function.update functions entered f, rfl,
        h.enter hf (by rw [← hi]; exact hcall) rfl fun j hj => ?_, Nat.le_succ _,
        fun number hlt => Function.update_of_ne (Nat.ne_of_lt hlt) ..⟩
      unfold Code.functionOf
      rw [functionOf_bitcode hj]
      exact P.entryBlock_function f hf
  | throw =>
      exact ⟨unwindFrames P P.bitcode (fr :: frs), entered, functions, rfl,
        h.unwind (fun b j hj => functionOf_bitcode hj) (fun i n u hk => (hm.dests i n u hk).2),
        Nat.le_refl _, hkeep⟩
  | halt => exact ⟨[], entered, functions, rfl, .nil, Nat.le_refl _, hkeep⟩

/-- One step keeps the frames on a path. -/
theorem Config.OnStack.step (hm : m.Along P info G) {c c' : Config Inst Value State}
    (h : c.OnStack P G functions) (hstep : step P m P.bitcode Hooks.none c = some c') :
    ∃ functions', c'.OnStack P G functions' := by
  obtain ⟨frames, s, entered, log⟩ := c
  obtain ⟨hstacked, hran⟩ := h
  cases frames with
  | nil => cases hstep
  | cons fr frs =>
      obtain ⟨number, callstackInst, rest⟩ := fr
      cases rest with
      | nil => cases hstep
      | cons j rest =>
          have hrest : ∀ k, .code k ∈ rest → P.functionOf k = functions number := fun k hk =>
            hstacked.code _ List.mem_cons_self k (List.mem_cons_of_mem j hk)
          cases j with
          | added a =>
              refine ⟨functions, ?_⟩
              rw [← Option.some_inj.mp hstep]
              obtain ⟨register, hregister⟩ :=
                Frame.perform_eq (⟨number, callstackInst, rest⟩ : Frame Inst Value) a
              refine ⟨?_, ?_⟩
              · show Stacked P G functions entered (Frame.perform _ a :: frs)
                rw [hregister]
                exact hstacked.goOn rfl hrest
              · intro n i s' hmem
                rcases List.mem_append.mp hmem with hmem | hmem
                · exact hran n i s' hmem
                · cases a with
                  | cast v => cases hmem
                  | call callee args => cases List.mem_singleton.mp hmem
          | code i =>
              have hi : P.functionOf i = functions number :=
                hstacked.code _ List.mem_cons_self i List.mem_cons_self
              have hnumber : number < entered := hstacked.number_lt _ List.mem_cons_self
              let c₁ : Config Inst Value State :=
                ⟨⟨number, callstackInst, .code i :: rest⟩ :: frs, (m.exec i s).1, entered,
                  log ++ [.ran number i s]⟩
              obtain ⟨frames, entered', functions', heq, hstacked', hle, hkeep⟩ :=
                Stacked.transfer (c := c₁) hm (i := i) (s := s) rfl hstacked hi
              have hc' : c₁.transfer P m P.bitcode Hooks.none (m.exec i s).2 = c' :=
                Option.some_inj.mp hstep
              refine ⟨functions', ?_⟩
              rw [← hc', heq]
              refine ⟨hstacked', ?_⟩
              intro n k s' hmem
              have hlog : n < entered ∧ P.functionOf k = functions n := by
                rcases List.mem_append.mp hmem with hmem | hmem
                · exact hran n k s' hmem
                · injection List.mem_singleton.mp hmem with hn hk
                  rw [hn, hk]
                  exact ⟨hnumber, hi⟩
              exact ⟨Nat.lt_of_lt_of_le hlog.1 hle, by rw [hkeep n hlog.1]; exact hlog.2⟩

/-- The frames of a run are on a path. -/
theorem onStack_of_reaches (hm : m.Along P info G) {s : State} {c : Config Inst Value State}
    (hc : Reaches (Pass.step P m P.bitcode Hooks.none) (Config.init P P.bitcode s) c) :
    ∃ functions, c.OnStack P G functions := by
  induction hc with
  | refl =>
      refine ⟨fun _ => P.main, ⟨?_, ?_, ?_, ?_⟩, fun n i s h => absurd h List.not_mem_nil⟩
      · intro fr hfr
        rw [List.mem_singleton.mp hfr]
        exact Nat.zero_lt_one
      · exact fun _ _ => P.main_mem
      · intro fr hfr j hj
        rw [List.mem_singleton.mp hfr] at hj
        unfold Code.functionOf
        rw [functionOf_bitcode hj]
        exact P.entryBlock_function P.main P.main_mem
      · exact .singleton _
  | tail _ hstep ih =>
      obtain ⟨functions, h⟩ := ih
      exact h.step hm hstep

end Run

-- =========================================================== what is reported

section Reported

variable [DecidableEq Func] [DecidableEq Block] [DecidableEq Inst] {P : Code Func Block Inst}
  {m : Meaning Func Block Inst Value State} {info : ModuleInfo Func Inst Value}
  {v : VisitorOptions Func Inst Value} {V : Visited Func Inst Value} {file : List UInt8}

omit [DecidableEq Block] in
/-- An allocation of the visitor's is in the code behind its
instruction. -/
theorem mem_after_allocation {o : InsertionOptions} (hall : o.disableAllInstrumentation = false)
    {inst : Inst} (hother : P.flowKind inst = .other) {e : AllocEntry Inst Value}
    (he : e ∈ V.allocations) (hinst : e.inst = some inst) :
    .call .texasMalloc [.const e.id, .value e.allocPointer, e.size.operand, .callstackInst]
      ∈ (moduleHooks P o V).after inst := by
  apply mem_after_moduleHooks.mpr
  refine ⟨⟨checkedPlace P (e.inst.elim .firstInstOfMain .inst), e.insts⟩, ?_, ?_, ?_⟩
  · rw [moduleEdits_groups P V hall]
    apply List.mem_append_left
    unfold startEdits
    simp only [List.mem_append, List.mem_map]
    exact .inl (.inl (.inl (.inr ⟨e, he, rfl⟩)))
  · rw [hinst]
    exact checkedPlace_other hother
  · unfold AllocEntry.insts
    simp only [List.mem_cons, or_true, true_or]

/-- The functions that are tagged have a body, and start tracking is
reachable from them, or all functions with a body are. -/
theorem tagged_of_reaches {G : CallGraph Func} (startTrackingFunction : Func) {nodes : List Func}
    (hnodes : ∀ f g, G.Calls f g → f ∈ nodes) {depth : Nat} (hdepth : nodes.length + 1 < depth)
    (disableLocalsOpt : Bool) (M : List Func) (empty : Func → Bool)
    {attrs : Func → TagFunctions.FunctionAttrs} (hattrs : ∀ f, (attrs f).optimizeLocals = false) :
    ∃ attrs', TagFunctions.runOnModule disableLocalsOpt G M empty (some startTrackingFunction) depth
        attrs = some attrs'
      ∧ ∀ f ∈ M, empty f = false → ReflTransGen G.Calls f startTrackingFunction →
        f ∈ (findFunctionsToInstrument M attrs').1 := by
  unfold TagFunctions.runOnModule
  cases disableLocalsOpt with
  | true =>
      refine ⟨_, rfl, fun f hf hempty _ => ?_⟩
      refine (mem_findFunctionsToInstrument hattrs).mpr ⟨hf, List.mem_filter.mpr ⟨hf, ?_⟩⟩
      rw [hempty]
      rfl
  | false =>
      obtain ⟨fs, heq, hfs⟩ :=
        findFunctionsToInstrument_exact G empty startTrackingFunction hnodes hdepth
      refine ⟨TagFunctions.tagFunctionsOptNone fs attrs, ?_, fun f hf hempty hreach => ?_⟩
      · dsimp only
        rw [if_neg Bool.false_ne_true, heq]
        rfl
      · exact (mem_findFunctionsToInstrument hattrs).mpr ⟨hf, (hfs f).mpr ⟨hreach, hempty⟩⟩

theorem trackingMain_along :
    trackingMeaning.Along trackingMain trackingInfo (CallGraph.ofPairs [(.main, .startTracking)]) := by
  refine ⟨?_, ?_, ?_, ?_⟩
  · intro i s b h
    cases i <;> cases h
  · intro i normalDest unwindDest h
    cases i <;> cases h
  · intro i s f h
    cases i <;> cases h
  · intro i ty metadata h s
    cases i <;> first | rfl | cases h

end Reported

end Carmot.Pass
