/-
Code that is in the module runs as if it were hooks.

`weave` puts the code of the hooks into the blocks, around the
instructions it belongs to. A frame that waits for a call has run the
code before the call and not the one after it, so the configurations
correspond frame by frame, the innermost one woven whole and the others
from behind their call (`Config.weave`). One step with hooks is then one
or more steps of the woven module (`weave_respects`), and everything
about runs follows from the general theory of such refinements.
-/
import Mathlib.Computability.StateTransition
import Carmot.Pass.Execution

namespace Carmot.Pass

open StateTransition

variable {Func Block Inst Value State : Type}

-- ================================================================ weaving

/-- An instruction with the code around it. -/
def Instr.weave (h : Hooks Inst Value) : Instr Inst Value → List (Instr Inst Value)
  | .code i => (h.before i).map .added ++ .code i :: (h.after i).map .added
  | .added a => [.added a]

/-- The code of the hooks, put into the blocks. -/
def weave (h : Hooks Inst Value) (bc : Bitcode Block Inst Value) : Bitcode Block Inst Value :=
  fun b => (bc b).flatMap (Instr.weave h)

/-- What is left of a woven block behind a call that has not returned,
the call included. -/
def weaveWaiting (h : Hooks Inst Value) : List (Instr Inst Value) → List (Instr Inst Value)
  | .code j :: rest => .code j :: ((h.after j).map .added ++ rest.flatMap (Instr.weave h))
  | rest => rest.flatMap (Instr.weave h)

/-- The innermost frame, woven. -/
def Frame.weave (h : Hooks Inst Value) (fr : Frame Inst Value) : Frame Inst Value :=
  { fr with rest := fr.rest.flatMap (Instr.weave h) }

/-- A frame that waits, woven. -/
def Frame.weaveWaiting (h : Hooks Inst Value) (fr : Frame Inst Value) : Frame Inst Value :=
  { fr with rest := Pass.weaveWaiting h fr.rest }

/-- The frames, woven. -/
def weaveFrames (h : Hooks Inst Value) : List (Frame Inst Value) → List (Frame Inst Value)
  | [] => []
  | fr :: frs => fr.weave h :: frs.map (Frame.weaveWaiting h)

namespace Config

/-- The configuration of the woven module. -/
def weave (h : Hooks Inst Value) (c : Config Inst Value State) : Config Inst Value State :=
  { c with frames := weaveFrames h c.frames }

/-- The same, while the instruction at the head of the innermost frame
runs. -/
def weaveWaiting (h : Hooks Inst Value) (c : Config Inst Value State) : Config Inst Value State :=
  { c with frames := c.frames.map (Frame.weaveWaiting h) }

/-- What is left of the innermost frame's block, replaced. -/
def setRest (rest : List (Instr Inst Value)) (c : Config Inst Value State) :
    Config Inst Value State :=
  { c with frames := c.frames.modifyHead fun fr => { fr with rest := rest } }

end Config

theorem weave_none (bc : Bitcode Block Inst Value) : weave Hooks.none bc = bc := by
  funext b
  have hone : (Instr.weave Hooks.none : Instr Inst Value → _) = fun x => [x] := by
    funext x
    cases x <;> rfl
  unfold weave
  rw [hone, List.flatMap_singleton']

-- ========================================================= inserted code

/-- The frame after inserted code. -/
def Frame.performAll (fr : Frame Inst Value) (as : List (Added Value)) : Frame Inst Value :=
  as.foldl Frame.perform fr

/-- What inserted code adds to the log. -/
def Meaning.report (m : Meaning Func Block Inst Value State) (s : State) :
    Frame Inst Value → List (Added Value) → List (Event Inst State)
  | _, [] => []
  | fr, a :: as => m.events fr s a ++ m.report s (fr.perform a) as

section Fire

variable (m : Meaning Func Block Inst Value State)

/-- Inserted code touches the innermost frame's register and the log. -/
theorem Frame.perform_eq (fr : Frame Inst Value) (a : Added Value) :
    ∃ register, fr.perform a = { fr with callstackInst := register } := by
  unfold Frame.perform
  split
  · exact ⟨_, rfl⟩
  · exact ⟨fr.callstackInst, rfl⟩

theorem Frame.performAll_eq (as : List (Added Value)) : ∀ fr : Frame Inst Value,
    ∃ register, fr.performAll as = { fr with callstackInst := register } := by
  induction as with
  | nil => exact fun fr => ⟨fr.callstackInst, rfl⟩
  | cons a as ih =>
      intro fr
      obtain ⟨register, heq⟩ := fr.perform_eq a
      obtain ⟨register', heq'⟩ := ih (fr.perform a)
      refine ⟨register', heq'.trans ?_⟩
      rw [heq]

/-- What inserted code does to the register does not depend on the
rest. -/
theorem Frame.perform_with (fr : Frame Inst Value) (rest : List (Instr Inst Value))
    (a : Added Value) :
    ({ fr with rest := rest } : Frame Inst Value).perform a = { fr.perform a with rest := rest } := by
  unfold Frame.perform
  split <;> rfl

theorem Frame.performAll_with (rest : List (Instr Inst Value)) (as : List (Added Value)) :
    ∀ fr : Frame Inst Value, ({ fr with rest := rest } : Frame Inst Value).performAll as
      = { fr.performAll as with rest := rest } := by
  induction as with
  | nil => exact fun _ => rfl
  | cons a as ih =>
      intro fr
      show (({ fr with rest := rest } : Frame Inst Value).perform a).performAll as = _
      rw [fr.perform_with, ih]
      rfl

/-- Nor does what it reports. -/
theorem Meaning.events_with (fr : Frame Inst Value) (s : State) (a : Added Value)
    (rest : List (Instr Inst Value)) : m.events { fr with rest := rest } s a = m.events fr s a := by
  have hop : m.operand { fr with rest := rest } s = m.operand fr s := by
    funext v
    cases v <;> rfl
  cases a with
  | cast v => rfl
  | call callee args =>
      unfold Meaning.events
      rw [hop]

theorem Meaning.report_with (s : State) (rest : List (Instr Inst Value)) (as : List (Added Value)) :
    ∀ fr : Frame Inst Value, m.report s { fr with rest := rest } as = m.report s fr as := by
  induction as with
  | nil => exact fun _ => rfl
  | cons a as ih =>
      intro fr
      show m.events _ s a ++ m.report s _ as = m.events fr s a ++ m.report s (fr.perform a) as
      rw [m.events_with, fr.perform_with, ih]

theorem Config.fire_nil (as : List (Added Value)) (s : State) (entered : Nat)
    (log : List (Event Inst State)) :
    (Config.mk ([] : List (Frame Inst Value)) s entered log).fire m as = ⟨[], s, entered, log⟩ := by
  induction as with
  | nil => rfl
  | cons a as ih => exact ih

theorem Config.fire_cons (frs : List (Frame Inst Value)) (s : State) (entered : Nat)
    (as : List (Added Value)) : ∀ (fr : Frame Inst Value) (log : List (Event Inst State)),
    (Config.mk (fr :: frs) s entered log).fire m as
      = ⟨fr.performAll as :: frs, s, entered, log ++ m.report s fr as⟩ := by
  induction as with
  | nil =>
      intro fr log
      show Config.mk (fr :: frs) s entered log = ⟨fr :: frs, s, entered, log ++ []⟩
      rw [List.append_nil]
  | cons a as ih =>
      intro fr log
      refine (ih (fr.perform a) (log ++ m.events fr s a)).trans ?_
      rw [List.append_assoc]
      rfl

end Fire

-- ================================================================== steps

section Steps

variable (P : Code Func Block Inst) (m : Meaning Func Block Inst Value State)
  (bc : Bitcode Block Inst Value) (h : Hooks Inst Value)

/-- Inserted code in front of the rest runs, one instruction at a
time. -/
theorem reaches_fire (rest : List (Instr Inst Value)) (frs : List (Frame Inst Value)) (s : State)
    (entered : Nat) (as : List (Added Value)) :
    ∀ (fr : Frame Inst Value) (log : List (Event Inst State)),
      Reaches (step P m bc Hooks.none)
        ⟨{ fr with rest := as.map .added ++ rest } :: frs, s, entered, log⟩
        ⟨{ fr.performAll as with rest := rest } :: frs, s, entered, log ++ m.report s fr as⟩ := by
  induction as with
  | nil =>
      intro fr log
      rw [show m.report s fr [] = [] from rfl, List.append_nil]
      exact Relation.ReflTransGen.refl
  | cons a as ih =>
      intro fr log
      have hrest := ih (fr.perform a) (log ++ m.events fr s a)
      rw [List.append_assoc] at hrest
      refine Relation.ReflTransGen.head ?_ hrest
      show some _ = some _
      congr 1
      show Config.mk (Frame.perform { fr with rest := as.map .added ++ rest } a :: frs) s entered
        (log ++ m.events { fr with rest := as.map .added ++ rest } s a) = _
      rw [Frame.perform_with, m.events_with]

theorem complete_invoke {j : Inst} {normalDest unwindDest : Block}
    (hj : (P.flowKind j).dests = some (normalDest, unwindDest)) (fr : Frame Inst Value)
    (rest : List (Instr Inst Value)) (frs : List (Frame Inst Value)) (s : State) (entered : Nat)
    (log : List (Event Inst State)) :
    Config.complete P m bc h ⟨{ fr with rest := .code j :: rest } :: frs, s, entered, log⟩
      = ⟨{ fr with rest := bc normalDest } :: frs, s, entered, log⟩ := by
  unfold Config.complete
  dsimp only
  rw [hj]
  rfl

theorem complete_other {j : Inst} (hj : (P.flowKind j).dests = none) (fr : Frame Inst Value)
    (rest : List (Instr Inst Value)) (frs : List (Frame Inst Value)) (s : State) (entered : Nat)
    (log : List (Event Inst State)) :
    Config.complete P m bc h ⟨{ fr with rest := .code j :: rest } :: frs, s, entered, log⟩
      = ⟨{ fr.performAll (h.after j) with rest := rest } :: frs, s, entered,
          log ++ m.report s fr (h.after j)⟩ := by
  have hfire := Config.fire_cons m frs s entered (h.after j) { fr with rest := rest } log
  rw [fr.performAll_with, m.report_with] at hfire
  unfold Config.complete
  dsimp only
  rw [hj]
  exact hfire

/-- An instruction at the head of the innermost frame is done. -/
theorem reaches_complete (c : Config Inst Value State) :
    Reaches (step P m (weave h bc) Hooks.none)
      ((c.weaveWaiting h).complete P m (weave h bc) Hooks.none)
      ((c.complete P m bc h).weave h) := by
  obtain ⟨frames, s, entered, log⟩ := c
  cases frames with
  | nil => exact Relation.ReflTransGen.refl
  | cons fr frs =>
      obtain ⟨number, callstackInst, rest⟩ := fr
      cases rest with
      | nil => exact Relation.ReflTransGen.refl
      | cons j rest =>
          cases j with
          | added a => exact Relation.ReflTransGen.refl
          | code j =>
              let fr : Frame Inst Value := ⟨number, callstackInst, rest⟩
              let frs' := frs.map (Frame.weaveWaiting h)
              let rest' := rest.flatMap (Instr.weave h)
              have hwaiting : Config.weaveWaiting h
                    ⟨{ fr with rest := .code j :: rest } :: frs, s, entered, log⟩
                  = ⟨{ fr with rest := .code j :: ((h.after j).map .added ++ rest') } :: frs',
                    s, entered, log⟩ := rfl
              show Reaches _ (Config.complete P m (weave h bc) Hooks.none (Config.weaveWaiting h
                ⟨{ fr with rest := .code j :: rest } :: frs, s, entered, log⟩)) _
              rw [hwaiting]
              cases hj : (P.flowKind j).dests with
              | some dests =>
                  obtain ⟨normalDest, unwindDest⟩ := dests
                  rw [complete_invoke P m _ _ hj]
                  have hplain := complete_invoke P m bc h hj fr rest frs s entered log
                  rw [hplain]
                  exact Relation.ReflTransGen.refl
              | none =>
                  rw [complete_other P m _ _ hj]
                  have hplain := complete_other P m bc h hj fr rest frs s entered log
                  rw [hplain]
                  have hnone : m.report s fr (Hooks.none.after j) = [] := rfl
                  rw [hnone, List.append_nil]
                  exact reaches_fire P m (weave h bc) rest' frs' s entered (h.after j) fr log

theorem unwindFrames_weave (frs : List (Frame Inst Value)) :
    unwindFrames P (weave h bc) (frs.map (Frame.weaveWaiting h))
      = weaveFrames h (unwindFrames P bc frs) := by
  induction frs with
  | nil => rfl
  | cons fr frs ih =>
      obtain ⟨number, callstackInst, rest⟩ := fr
      cases rest with
      | nil => exact ih
      | cons j rest =>
          cases j with
          | added a => exact ih
          | code j =>
              cases hj : (P.flowKind j).dests with
              | some dests =>
                  simp only [List.map_cons, Frame.weaveWaiting, weaveWaiting, unwindFrames, hj]
                  rfl
              | none =>
                  simp only [List.map_cons, Frame.weaveWaiting, weaveWaiting, unwindFrames, hj]
                  exact ih

/-- Control goes where the instruction at the head of the innermost
frame sends it. -/
theorem reaches_transfer (c : Config Inst Value State) (o : Outcome Func Block) :
    Reaches (step P m (weave h bc) Hooks.none)
      ((c.weaveWaiting h).transfer P m (weave h bc) Hooks.none o)
      ((c.transfer P m bc h o).weave h) := by
  cases o with
  | done => exact reaches_complete P m bc h c
  | goto b =>
      obtain ⟨frames, s, entered, log⟩ := c
      cases frames with
      | nil => exact Relation.ReflTransGen.refl
      | cons fr frs => exact Relation.ReflTransGen.refl
  | call f => exact Relation.ReflTransGen.refl
  | ret =>
      have hleave : (c.weaveWaiting h).leave = c.leave.weaveWaiting h := by
        obtain ⟨frames, s, entered, log⟩ := c
        cases frames <;> rfl
      show Reaches _ ((c.weaveWaiting h).leave.complete P m (weave h bc) Hooks.none) _
      rw [hleave]
      exact reaches_complete P m bc h c.leave
  | throw =>
      unfold Config.transfer Config.weaveWaiting Config.weave
      dsimp only
      rw [unwindFrames_weave]
      exact Relation.ReflTransGen.refl
  | halt => exact Relation.ReflTransGen.refl

/-- A step with hooks is one step or more of the woven module. -/
theorem weave_respects :
    Respects (step P m bc h) (step P m (weave h bc) Hooks.none)
      fun c d : Config Inst Value State => c.weave h = d := by
  apply fun_respects.mpr
  intro c
  obtain ⟨frames, s, entered, log⟩ := c
  cases frames with
  | nil => rfl
  | cons fr frs =>
      obtain ⟨number, callstackInst, rest⟩ := fr
      cases rest with
      | nil => rfl
      | cons j rest =>
          let fr : Frame Inst Value := ⟨number, callstackInst, rest⟩
          let frs' := frs.map (Frame.weaveWaiting h)
          let rest' := rest.flatMap (Instr.weave h)
          cases j with
          | added a =>
              apply Relation.TransGen.single
              show some (Config.mk (Frame.perform { fr with rest := rest' } a :: frs') s entered
                  (log ++ m.events { fr with rest := rest' } s a))
                = some (Config.weave h ⟨fr.perform a :: frs, s, entered, log ++ m.events fr s a⟩)
              rw [fr.perform_with, m.events_with]
              obtain ⟨register, heq⟩ := fr.perform_eq a
              rw [heq]
              rfl
          | code i =>
              let waiting := .code i :: ((h.after i).map .added ++ rest')
              have hbefore := reaches_fire P m (weave h bc) waiting frs' s entered (h.before i) fr log
              obtain ⟨register, hfr⟩ := Frame.performAll_eq (h.before i) fr
              rw [hfr] at hbefore
              -- the instruction has run, and control is still at it
              let c : Config Inst Value State :=
                ⟨{ fr with callstackInst := register, rest := .code i :: rest } :: frs,
                  (m.exec i s).1, entered,
                  log ++ m.report s fr (h.before i) ++ [.ran number i s]⟩
              have hafter := reaches_transfer P m bc h c (m.exec i s).2
              have hstep : step P m bc h ⟨{ fr with rest := .code i :: rest } :: frs, s, entered, log⟩
                  = some (c.transfer P m bc h (m.exec i s).2) := by
                show some (Config.execute P m bc h _ i (Config.fire m (h.before i) _)) = _
                rw [Config.fire_cons, fr.performAll_with, m.report_with, hfr]
                rfl
              show FRespects _ _ _ (step P m bc h
                ⟨{ fr with rest := .code i :: rest } :: frs, s, entered, log⟩)
              rw [hstep]
              have hwoven : (.code i :: rest).flatMap (Instr.weave h)
                  = (h.before i).map .added ++ waiting := List.append_assoc ..
              show Reaches₁ (step P m (weave h bc) Hooks.none)
                ⟨{ fr with rest := (.code i :: rest).flatMap (Instr.weave h) } :: frs', s, entered, log⟩
                (Config.weave h (c.transfer P m bc h (m.exec i s).2))
              rw [hwoven]
              exact (Relation.TransGen.tail' hbefore rfl).trans_left hafter

end Steps

end Carmot.Pass
