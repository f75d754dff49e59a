/-
What code around instructions reports.

The log of the program with hooks is the instructions that ran with the
reports of the code around each of them: of the code before it in the
state it found, and of the code after it in the state it left, if it
came to its end (`Config.Reported.step`). Two things make the log so
plain. Every function captures its stack before it uses the capture, so
the callstack operand is the one of the frame, wherever it is used; and
there is no code after an instruction that calls into the module, so no
report waits for a call to return.
-/
import Carmot.Pass.Proofs.Preservation

namespace Carmot.Pass

open StateTransition

variable {Func Block Inst Value State : Type}

-- ============================================================== the reports

/-- A frame that has captured its stack. -/
def Frame.captured (number : Nat) : Frame Inst Value := ⟨number, some number, []⟩

/-- What code reports in a frame that has captured its stack. -/
def Meaning.reports (m : Meaning Func Block Inst Value State) (number : Nat) (s : State)
    (as : List (Added Value)) : List (Event Inst State) :=
  as.flatMap (m.events (Frame.captured number) s)

/-- What the code after an instruction reports. -/
def Meaning.reportsAfter (m : Meaning Func Block Inst Value State) (h : Hooks Inst Value)
    (number : Nat) (i : Inst) (s : State) : List (Event Inst State) :=
  match m.exec i s with
  | (s', .done) => m.reports number s' (h.after i)
  | _ => []

/-- An instruction that ran, with the reports around it. -/
def Meaning.wovenEvents (m : Meaning Func Block Inst Value State) (h : Hooks Inst Value) :
    Event Inst State → List (Event Inst State)
  | .ran number i s =>
      m.reports number s (h.before i) ++ .ran number i s :: m.reportsAfter h number i s
  | .call _ _ => []

/-- Is it the capture? -/
def Operand.isCallstackInst : Operand Value → Bool
  | .callstackInst => true
  | .const _ | .value _ => false

/-- Does the code use the capture? -/
def Added.usesCallstack : Added Value → Bool
  | .cast v => v.isCallstackInst
  | .call _ args => args.any Operand.isCallstackInst

/-- The code captures the stack, and uses the capture only behind. -/
def CapturesFirst (as : List (Added Value)) : Prop :=
  ∃ as₁ a as₂, as = as₁ ++ a :: as₂ ∧ (∀ x ∈ as₁, x.isCallstack = false)
    ∧ a.isCallstack = true ∧ ∀ x ∈ as₁ ++ [a], x.usesCallstack = false

section Reports

variable (m : Meaning Func Block Inst Value State)

theorem filter_reports (number : Nat) (s : State) (as : List (Added Value)) :
    (m.reports number s as).filter Event.isRan = [] := by
  unfold Meaning.reports
  rw [List.filter_flatMap]
  apply List.flatMap_eq_nil_iff.mpr
  intro a _
  cases a <;> rfl

/-- A frame that has captured its stack keeps the capture. -/
theorem report_captured (s : State) (as : List (Added Value)) :
    ∀ {fr : Frame Inst Value}, fr.callstackInst = some fr.number →
      m.report s fr as = m.reports fr.number s as
        ∧ (fr.performAll as).callstackInst = some fr.number := by
  induction as with
  | nil => exact fun hfr => ⟨rfl, hfr⟩
  | cons a as ih =>
      intro fr hfr
      obtain ⟨number, callstackInst, rest⟩ := fr
      dsimp only at hfr
      subst hfr
      have hperform : Frame.perform ⟨number, some number, rest⟩ a = ⟨number, some number, rest⟩ := by
        unfold Frame.perform
        split <;> rfl
      obtain ⟨hreport, hregister⟩ := @ih ⟨number, some number, rest⟩ rfl
      refine ⟨?_, ?_⟩
      · show m.events _ s a ++ m.report s (Frame.perform _ a) as = _
        rw [hperform, hreport]
        have hone : m.events ⟨number, some number, rest⟩ s a = m.events (Frame.captured number) s a :=
          m.events_with (Frame.captured number) s a rest
        rw [hone]
        rfl
      · show ((Frame.perform _ a).performAll as).callstackInst = _
        rw [hperform]
        exact hregister

/-- What does not use the capture reports the same without it. -/
theorem events_unused {a : Added Value} (ha : a.usesCallstack = false) (fr fr' : Frame Inst Value)
    (s : State) : m.events fr s a = m.events fr' s a := by
  cases a with
  | cast v => rfl
  | call callee args =>
      have hargs : args.map (m.operand fr s) = args.map (m.operand fr' s) := by
        apply List.map_congr_left
        intro v hv
        have hnot := (List.any_eq_false.mp ha) v hv
        cases v with
        | const c => rfl
        | value v => rfl
        | callstackInst => exact absurd rfl hnot
      show [Event.call callee _] = [Event.call callee _]
      rw [hargs]

theorem report_capturesFirst (s : State) {as : List (Added Value)} (has : CapturesFirst as)
    (fr : Frame Inst Value) :
    m.report s fr as = m.reports fr.number s as
      ∧ (fr.performAll as).callstackInst = some fr.number := by
  obtain ⟨as₁, a, as₂, rfl, hnot, ha, huses⟩ := has
  induction as₁ generalizing fr with
  | nil =>
      have hperform : fr.perform a = { fr with callstackInst := some fr.number } := if_pos ha
      obtain ⟨hreport, hregister⟩ :=
        @report_captured _ _ _ _ _ m s as₂ { fr with callstackInst := some fr.number } rfl
      refine ⟨?_, ?_⟩
      · show m.events fr s a ++ m.report s (fr.perform a) as₂ = _
        rw [hperform, hreport, events_unused m (huses a (List.mem_cons_self ..)) fr
          (Frame.captured fr.number)]
        rfl
      · show ((fr.perform a).performAll as₂).callstackInst = _
        rw [hperform]
        exact hregister
  | cons x as₁ ih =>
      have hx : x.isCallstack = false := hnot x (List.mem_cons_self ..)
      have hperform : fr.perform x = fr := if_neg (by rw [hx]; exact Bool.false_ne_true)
      obtain ⟨hreport, hregister⟩ := ih fr (fun y hy => hnot y (List.mem_cons_of_mem _ hy))
        (fun y hy => huses y (List.mem_cons_of_mem _ hy))
      refine ⟨?_, ?_⟩
      · show m.events fr s x ++ m.report s (fr.perform x) (as₁ ++ a :: as₂) = _
        rw [hperform, hreport, events_unused m (huses x (List.mem_cons_self ..)) fr
          (Frame.captured fr.number)]
        rfl
      · show ((fr.perform x).performAll (as₁ ++ a :: as₂)).callstackInst = _
        rw [hperform]
        exact hregister

end Reports

-- ============================================================ the invariant

section Invariant

variable (P : Code Func Block Inst) (m : Meaning Func Block Inst Value State)
  (h : Hooks Inst Value)

/-- What holds of a frame once its first instruction has run. -/
structure Frame.Settled (fr : Frame Inst Value) : Prop where
  plain : ∃ is : List Inst, fr.rest = is.map .code
  register : fr.callstackInst = some fr.number

/-- What holds of a frame that waits for a call. -/
structure Frame.Waits (fr : Frame Inst Value) : Prop where
  settled : fr.Settled
  after : ∀ j rest, fr.rest = .code j :: rest → h.after j = []

/-- What holds of the innermost frame: it is at its start, or
settled. -/
def Frame.Fresh (fr : Frame Inst Value) : Prop :=
  fr.Settled ∨ ∃ f ∈ P.functions, fr.rest = P.bitcode (P.entryBlock f)

/-- The log is what it should be. -/
structure Config.Reported (c : Config Inst Value State) : Prop where
  log : c.log = c.ran.flatMap (m.wovenEvents h)
  head : ∀ fr ∈ c.frames.head?, fr.Fresh P
  tail : ∀ fr ∈ c.frames.tail, fr.Waits h

/-- The frames while the instruction at the head of the innermost one
runs. -/
structure FramesSettled (frs : List (Frame Inst Value)) : Prop where
  head : ∀ fr ∈ frs.head?, fr.Settled
  tail : ∀ fr ∈ frs.tail, fr.Waits h

/-- The calls into the module: of its functions, and from instructions
with no code after them. -/
structure Meaning.CallsWell : Prop where
  functions : ∀ i s f, (m.exec i s).2 = .call f → f ∈ P.functions
  after : ∀ i s f, (m.exec i s).2 = .call f → h.after i = []

variable {P m h}

theorem FramesSettled.nil : FramesSettled h ([] : List (Frame Inst Value)) :=
  ⟨fun _ hfr => absurd hfr (Option.not_mem_none _), fun _ hfr => absurd hfr List.not_mem_nil⟩

theorem FramesSettled.head_eq {fr fr' : Frame Inst Value} {frs : List (Frame Inst Value)}
    (hfrs : FramesSettled h (fr :: frs)) (hfr' : fr'.Settled) : FramesSettled h (fr' :: frs) := by
  refine ⟨?_, hfrs.tail⟩
  intro fr'' hfr''
  rw [← Option.some_inj.mp hfr'']
  exact hfr'

/-- A frame goes on at a block. -/
theorem Frame.Settled.jump {fr : Frame Inst Value} (hfr : fr.Settled) (b : Block) :
    ({ fr with rest := P.bitcode b } : Frame Inst Value).Settled :=
  ⟨⟨P.insts b, rfl⟩, hfr.register⟩

/-- The instruction at the head is done: what is reported then. -/
theorem FramesSettled.complete {fr : Frame Inst Value} {frs : List (Frame Inst Value)}
    (hfrs : FramesSettled h (fr :: frs)) (hclean : h.Clean P) (s : State) (entered : Nat)
    (log : List (Event Inst State)) {j : Inst} {rest : List (Instr Inst Value)}
    (hj : fr.rest = .code j :: rest) :
    ∃ frs', FramesSettled h frs'
      ∧ Config.complete P m P.bitcode h ⟨fr :: frs, s, entered, log⟩
        = ⟨frs', s, entered, log ++ m.reports fr.number s (h.after j)⟩ := by
  obtain ⟨number, callstackInst, rest'⟩ := fr
  dsimp only at hj
  subst hj
  have hhead : Frame.Settled ⟨number, callstackInst, .code j :: rest⟩ := hfrs.head _ rfl
  cases hdests : (P.flowKind j).dests with
  | some dests =>
      obtain ⟨normalDest, unwindDest⟩ := dests
      have hterm : (P.flowKind j).isTerminator = true := by
        cases hk : P.flowKind j <;> rw [hk] at hdests <;> first | rfl | cases hdests
      have hplain := complete_invoke P m P.bitcode h hdests ⟨number, callstackInst, rest⟩ rest frs s
        entered log
      refine ⟨_, hfrs.head_eq (@Frame.Settled.jump _ _ _ _ P _ hhead normalDest), ?_⟩
      rw [hclean.terminator j hterm]
      refine hplain.trans ?_
      show _ = Config.mk _ s entered (log ++ [])
      rw [List.append_nil]
  | none =>
      have hplain := complete_other P m P.bitcode h hdests ⟨number, callstackInst, rest⟩ rest frs s
        entered log
      obtain ⟨hreport, hregister⟩ := @report_captured _ _ _ _ _ m s (h.after j)
        ⟨number, callstackInst, rest⟩ hhead.register
      obtain ⟨register, heq⟩ := Frame.performAll_eq (h.after j)
        (⟨number, callstackInst, rest⟩ : Frame Inst Value)
      rw [hreport, heq] at hplain
      rw [heq] at hregister
      refine ⟨_, hfrs.head_eq ?_, hplain⟩
      obtain ⟨is, his⟩ := hhead.plain
      refine ⟨⟨is.tail, ?_⟩, hregister⟩
      cases is with
      | nil => cases his
      | cons i is => exact (List.cons.inj his).2

/-- The frames an exception leaves. -/
theorem FramesSettled.unwind {frs : List (Frame Inst Value)} (hfrs : FramesSettled h frs) :
    FramesSettled h (unwindFrames P P.bitcode frs) := by
  induction frs with
  | nil => exact hfrs
  | cons fr frs ih =>
      have htail : FramesSettled h frs := by
        refine ⟨?_, ?_⟩
        · intro fr' hfr'
          exact (hfrs.tail fr' (List.mem_of_mem_head? hfr')).settled
        · intro fr' hfr'
          exact hfrs.tail fr' (List.mem_of_mem_tail hfr')
      unfold unwindFrames
      split
      · split
        · exact hfrs.head_eq ((hfrs.head fr rfl).jump _)
        · exact ih htail
      · exact ih htail

/-- Frames that are settled are frames a configuration may have. -/
theorem FramesSettled.fresh {frs : List (Frame Inst Value)} (hfrs : FramesSettled h frs) :
    (∀ fr ∈ frs.head?, fr.Fresh P) ∧ ∀ fr ∈ frs.tail, fr.Waits h :=
  ⟨fun fr hfr => Or.inl (hfrs.head fr hfr), hfrs.tail⟩

/-- Where control goes, and what is reported on the way. -/
theorem FramesSettled.transfer {fr : Frame Inst Value} {frs : List (Frame Inst Value)}
    (hfrs : FramesSettled h (fr :: frs)) (hclean : h.Clean P) (hcalls : m.CallsWell P h)
    {i : Inst} {rest : List (Instr Inst Value)} (hi : fr.rest = .code i :: rest) {s s' : State}
    {o : Outcome Func Block} (hexec : m.exec i s = (s', o)) (entered : Nat)
    (log : List (Event Inst State)) :
    ∃ frs' entered', ((∀ fr ∈ frs'.head?, fr.Fresh P) ∧ ∀ fr ∈ frs'.tail, fr.Waits h)
      ∧ Config.transfer P m P.bitcode h ⟨fr :: frs, s', entered, log⟩ o
        = ⟨frs', s', entered', log ++ m.reportsAfter h fr.number i s⟩ := by
  unfold Meaning.reportsAfter
  rw [hexec]
  cases o with
  | done =>
      obtain ⟨frs', hfrs', heq⟩ := @FramesSettled.complete _ _ _ _ _ P m h _ _ hfrs hclean s' entered
        log i rest hi
      exact ⟨frs', entered, hfrs'.fresh, heq⟩
  | goto b =>
      refine ⟨{ fr with rest := P.bitcode b } :: frs, entered, ?_, ?_⟩
      · exact (hfrs.head_eq ((hfrs.head fr rfl).jump b)).fresh
      · rw [List.append_nil]
        rfl
  | call f =>
      have hcall : (m.exec i s).2 = .call f := by rw [hexec]
      refine ⟨⟨entered, none, P.bitcode (P.entryBlock f)⟩ :: fr :: frs, entered + 1, ⟨?_, ?_⟩, ?_⟩
      · intro fr' hfr'
        rw [← Option.some_inj.mp hfr']
        exact Or.inr ⟨f, hcalls.functions i s f hcall, rfl⟩
      · intro fr' hfr'
        rcases List.mem_cons.mp hfr' with rfl | hfr'
        · refine ⟨hfrs.head _ rfl, ?_⟩
          intro j rest' hj
          rw [hi] at hj
          injection hj with hj
          injection hj with hj
          subst hj
          exact hcalls.after i s f hcall
        · exact hfrs.tail fr' hfr'
      · rw [List.append_nil]
        rfl
  | ret =>
      rw [List.append_nil]
      show ∃ frs' entered', _ ∧ Config.complete P m P.bitcode h ⟨frs, s', entered, log⟩ = _
      cases frs with
      | nil => exact ⟨[], entered, FramesSettled.nil.fresh, rfl⟩
      | cons fr₂ frs =>
          have hwaits : fr₂.Waits h := hfrs.tail fr₂ (List.mem_cons_self ..)
          have htail : FramesSettled h (fr₂ :: frs) := by
            refine ⟨?_, fun fr' hfr' => hfrs.tail fr' (List.mem_cons_of_mem _ hfr')⟩
            intro fr' hfr'
            rw [← Option.some_inj.mp hfr']
            exact hwaits.settled
          obtain ⟨is, his⟩ := hwaits.settled.plain
          cases is with
          | nil =>
              obtain ⟨number, callstackInst, rest'⟩ := fr₂
              dsimp only at his
              subst his
              exact ⟨[], entered, FramesSettled.nil.fresh, rfl⟩
          | cons j is =>
              obtain ⟨frs', hfrs', heq⟩ := @FramesSettled.complete _ _ _ _ _ P m h _ _ htail hclean
                s' entered log j _ his
              refine ⟨frs', entered, hfrs'.fresh, ?_⟩
              rw [heq, hwaits.after j _ his]
              show Config.mk _ _ _ (log ++ []) = _
              rw [List.append_nil]
  | throw =>
      rw [List.append_nil]
      exact ⟨_, entered, (@FramesSettled.unwind _ _ _ _ P h _ hfrs).fresh, rfl⟩
  | halt =>
      rw [List.append_nil]
      exact ⟨[], entered, FramesSettled.nil.fresh, rfl⟩

/-- A step of the program with its hooks. -/
theorem Config.Reported.step {c c' : Config Inst Value State} (hc : c.Reported P m h)
    (hclean : h.Clean P) (hcalls : m.CallsWell P h)
    (hfirst : ∀ f ∈ P.functions, CapturesFirst (h.before (P.firstInsertionPt (P.entryBlock f))))
    (hstep : Pass.step P m P.bitcode h c = some c') : c'.Reported P m h := by
  obtain ⟨frames, s, entered, log⟩ := c
  cases frames with
  | nil => cases hstep
  | cons fr frs =>
      have hplain : ∃ is : List Inst, fr.rest = is.map .code := by
        rcases hc.head fr rfl with hsettled | ⟨f, -, hrest⟩
        · exact hsettled.plain
        · exact ⟨_, hrest⟩
      obtain ⟨is, his⟩ := hplain
      cases is with
      | nil =>
          unfold Pass.step at hstep
          dsimp only at hstep
          rw [his] at hstep
          cases hstep
      | cons i is =>
          -- the code before the instruction
          have hbefore : m.report s fr (h.before i) = m.reports fr.number s (h.before i)
              ∧ (fr.performAll (h.before i)).callstackInst = some fr.number := by
            rcases hc.head fr rfl with hsettled | ⟨f, hf, hrest⟩
            · exact report_captured m s _ hsettled.register
            · obtain ⟨body, hbody⟩ := P.entry_split hf
              have hi : P.firstInsertionPt (P.entryBlock f) = i := by
                have heq := his.symm.trans hrest
                unfold Code.bitcode at heq
                rw [hbody] at heq
                injection heq with heq
                injection heq with heq
                exact heq.symm
              rw [← hi]
              exact report_capturesFirst m s (hfirst f hf) fr
          obtain ⟨hreport, hregister⟩ := hbefore
          obtain ⟨register, hfr⟩ := Frame.performAll_eq (h.before i) fr
          rw [hfr] at hregister
          have hfrs : FramesSettled h ({ fr with callstackInst := register } :: frs) := by
            refine ⟨?_, hc.tail⟩
            intro fr' hfr'
            rw [← Option.some_inj.mp hfr']
            exact ⟨⟨i :: is, his⟩, hregister⟩
          -- the instruction, and what comes after it
          obtain ⟨frs', entered', ⟨hhead, htail⟩, heq⟩ := @FramesSettled.transfer _ _ _ _ _ P m h _ _
            hfrs hclean hcalls i _ his s (m.exec i s).1 (m.exec i s).2 rfl entered
            (log ++ m.reports fr.number s (h.before i) ++ [.ran fr.number i s])
          have hc' : c' = ⟨frs', (m.exec i s).1, entered',
              log ++ m.reports fr.number s (h.before i) ++ [.ran fr.number i s]
                ++ m.reportsAfter h fr.number i s⟩ := by
            rw [← heq]
            unfold Pass.step at hstep
            dsimp only at hstep
            rw [his] at hstep
            rw [← Option.some_inj.mp hstep, Config.fire_cons, hreport, hfr]
            rfl
          subst hc'
          refine ⟨?_, hhead, htail⟩
          have hafter : (m.reportsAfter h fr.number i s).filter Event.isRan = [] := by
            unfold Meaning.reportsAfter
            split
            · exact filter_reports m _ _ _
            · rfl
          have hlog : log = (log.filter Event.isRan).flatMap (m.wovenEvents h) := hc.log
          unfold Config.ran
          dsimp only
          rw [List.filter_append, List.filter_append, List.filter_append, filter_reports, hafter,
            List.append_nil, List.append_nil]
          show _ = ((log.filter Event.isRan) ++ [Event.ran fr.number i s]).flatMap _
          rw [List.flatMap_append, ← hlog, List.flatMap_singleton]
          show _ = log ++ (m.reports fr.number s (h.before i)
            ++ .ran fr.number i s :: m.reportsAfter h fr.number i s)
          simp only [List.append_assoc, List.singleton_append]

end Invariant

end Carmot.Pass
