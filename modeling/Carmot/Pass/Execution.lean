/-
Running a module, before and after the pass.

What an instruction of the program does to the program's state, and
where it sends control, is `Meaning`: any semantics in which the
runtime's memory is not the program's. A call of a function with a body
opens a frame, an exception closes frames up to an invoke, and a call of
anything else is one step. The log has every instruction that ran, with
the frame it ran in and the state it found, and every call of the
runtime with the values of its operands.

`Hooks` are code that runs at an instruction without being in the
module: `step` with hooks on the program as it is says what the
instrumented program should do.
-/
import Carmot.Pass.Insertion

namespace Carmot.Pass

/-- Where control goes after an instruction. -/
inductive Outcome (Func Block : Type)
  | done
  | goto (b : Block)
  | call (f : Func)
  | ret
  | throw
  | halt
  deriving DecidableEq, Repr

/-- What the program's instructions and values mean. -/
structure Meaning (Func Block Inst Value State : Type) where
  exec : Inst → State → State × Outcome Func Block
  eval : Value → State → UInt64

/-- What the runtime is handed: a word, or the stack captured in a
frame. -/
inductive Arg
  | word (w : UInt64)
  | trace (frame : Nat)
  | undef
  deriving DecidableEq, Repr

/-- An entry of the log. -/
inductive Event (Inst State : Type)
  | ran (frame : Nat) (i : Inst) (s : State)
  | call (callee : Callee) (args : List Arg)
  deriving DecidableEq, Repr

/-- A frame: its number, what the callstack call returned in it, and
what is left of its block. A frame that waits for a call has the call
at the head. -/
structure Frame (Inst Value : Type) where
  number : Nat
  callstackInst : Option Nat
  rest : List (Instr Inst Value)
  deriving DecidableEq, Repr

/-- A run, so far: the innermost frame is first. -/
structure Config (Inst Value State : Type) where
  frames : List (Frame Inst Value)
  state : State
  entered : Nat
  log : List (Event Inst State)
  deriving DecidableEq, Repr

/-- Code that runs at an instruction. -/
structure Hooks (Inst Value : Type) where
  before : Inst → List (Added Value)
  after : Inst → List (Added Value)

/-- No code. -/
def Hooks.none {Inst Value : Type} : Hooks Inst Value := ⟨fun _ => [], fun _ => []⟩

variable {Func Block Inst Value State : Type}

-- ========================================================= inserted code

/-- The value of an operand in a frame. -/
def Meaning.operand (m : Meaning Func Block Inst Value State) (fr : Frame Inst Value) (s : State) :
    Operand Value → Arg
  | .const c => .word c
  | .value v => .word (m.eval v s)
  | .callstackInst => fr.callstackInst.elim .undef .trace

/-- What an inserted instruction does in its frame. -/
def Frame.perform (fr : Frame Inst Value) (a : Added Value) : Frame Inst Value :=
  if a.isCallstack then { fr with callstackInst := some fr.number } else fr

/-- What an inserted instruction adds to the log. -/
def Meaning.events (m : Meaning Func Block Inst Value State) (fr : Frame Inst Value) (s : State) :
    Added Value → List (Event Inst State)
  | .cast _ => []
  | .call callee args => [.call callee (args.map (m.operand fr s))]

/-- An inserted instruction runs in the innermost frame. -/
def Config.perform (m : Meaning Func Block Inst Value State) (c : Config Inst Value State)
    (a : Added Value) : Config Inst Value State :=
  match c.frames with
  | [] => c
  | fr :: frs =>
      { c with frames := fr.perform a :: frs, log := c.log ++ m.events fr c.state a }

/-- Inserted instructions run. -/
def Config.fire (m : Meaning Func Block Inst Value State) (as : List (Added Value))
    (c : Config Inst Value State) : Config Inst Value State :=
  as.foldl (Config.perform m) c

-- ================================================================ control

section Control

variable (P : Code Func Block Inst) (m : Meaning Func Block Inst Value State)
  (bc : Bitcode Block Inst Value) (h : Hooks Inst Value)

namespace Config

/-- The innermost frame goes on at a block. -/
def jump (b : Block) (c : Config Inst Value State) : Config Inst Value State :=
  match c.frames with
  | [] => c
  | fr :: frs => { c with frames := { fr with rest := bc b } :: frs }

/-- The instruction at the head of the innermost frame is done. -/
def complete (c : Config Inst Value State) : Config Inst Value State :=
  match c.frames with
  | { rest := .code j :: rest, .. } :: _ =>
      match (P.flowKind j).dests with
      | some (normalDest, _) => c.jump bc normalDest
      | none =>
          { c with frames := c.frames.modifyHead fun fr => { fr with rest := rest } }.fire m
            (h.after j)
  | _ => { c with frames := [] }

/-- A frame for a function. -/
def enter (f : Func) (c : Config Inst Value State) : Config Inst Value State :=
  { c with frames := ⟨c.entered, none, bc (P.entryBlock f)⟩ :: c.frames, entered := c.entered + 1 }

/-- The innermost frame is closed. -/
def leave (c : Config Inst Value State) : Config Inst Value State :=
  { c with frames := c.frames.tail }

end Config

/-- The frames an exception leaves: the innermost one that waits at an
invoke goes on at its unwind destination. -/
def unwindFrames : List (Frame Inst Value) → List (Frame Inst Value)
  | [] => []
  | fr :: frs =>
      match fr.rest with
      | .code j :: _ =>
          match (P.flowKind j).dests with
          | some (_, unwindDest) => { fr with rest := bc unwindDest } :: frs
          | none => unwindFrames frs
      | _ => unwindFrames frs

namespace Config

/-- Control goes where an instruction sends it. -/
def transfer (c : Config Inst Value State) : Outcome Func Block → Config Inst Value State
  | .done => c.complete P m bc h
  | .goto b => c.jump bc b
  | .call f => c.enter P bc f
  | .ret => c.leave.complete P m bc h
  | .throw => { c with frames := unwindFrames P bc c.frames }
  | .halt => { c with frames := [] }

/-- An instruction of the program runs in the innermost frame. -/
def execute (fr : Frame Inst Value) (i : Inst) (c : Config Inst Value State) :
    Config Inst Value State :=
  Config.transfer P m bc h
    { c with state := (m.exec i c.state).1, log := c.log ++ [.ran fr.number i c.state] }
    (m.exec i c.state).2

end Config

/-- One step. -/
def step (c : Config Inst Value State) : Option (Config Inst Value State) :=
  match c.frames with
  | [] => none
  | fr :: frs =>
      match fr.rest with
      | [] => none
      | .added a :: rest => some ({ c with frames := { fr with rest := rest } :: frs }.perform m a)
      | .code i :: _ => some ((c.fire m (h.before i)).execute P m bc h fr i)

/-- The start of main. -/
def Config.init (s : State) : Config Inst Value State :=
  ⟨[⟨0, none, bc (P.entryBlock P.main)⟩], s, 1, []⟩

end Control

end Carmot.Pass
