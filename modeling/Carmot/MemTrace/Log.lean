/-
The MemTrace tool (utils/MemTrace/memtrace.cpp), for one thread.

Pin compiles the program trace by trace. A trace that is compiled while
logging is on gets calls that write into a buffer: a word for the trace
header, then a word for every reference of the trace, filled in when the
reference is reached. The buffer becomes list entries when a trace does
not fit any more or logging stops (`Expand`). Calls of malloc and free
go to the list directly.

The buffer is used over and over and never cleared: `Expand` empties the
words of the references and leaves the headers, and it stops at the
first empty word where a header should be. A reference that was not
reached leaves its word as it was.

# Left out

The output file; the end of a thread, which expands its buffer once
more; the toggles of one kind of event alone, which work on the same
flags.
-/
import Mathlib.Logic.Function.Basic
import Carmot.Wrapper.Calls

namespace Carmot.MemTrace

open Carmot.Texas (Addr)
open Carmot.Wrapper (PinAddress)

-- ======================================================= compiled code

/-- Which address of an instruction an analysis call gets:
`IARG_MEMORYREAD_EA`, `IARG_MEMORYWRITE_EA` or `IARG_MEMORYREAD2_EA`. -/
inductive Access
  | read | write | read2
  deriving DecidableEq, Repr

/-- `REF::Read`. -/
def Access.isRead : Access → Bool
  | .write => false
  | _ => true

/-- A memory operand, or an implicit one of a push, a pop, a call. -/
inductive Operand
  | memory | stack
  deriving DecidableEq, Repr

/-- What Pin knows of an instruction. -/
structure Ins where
  memoryRead : Option Operand
  memoryWrite : Option Operand
  memoryRead2 : Option Operand
  isStandardMemop : Bool
  deriving DecidableEq, Repr

/-- The memory accesses of an instruction, in the order `InstrumentBBL`
asks for them. -/
def Ins.accesses (ins : Ins) : List (Access × Operand) :=
  (ins.memoryRead.map (Access.read, ·)).toList
    ++ (ins.memoryWrite.map (Access.write, ·)).toList
    ++ (ins.memoryRead2.map (Access.read2, ·)).toList

/-- `INS_IsStackRead || INS_IsStackWrite`. -/
def Ins.isStack (ins : Ins) : Bool := ins.accesses.any fun a => decide (a.2 = .stack)

/-- The calls `InstrumentBBL` records for an instruction. -/
def Ins.instrument (ins : Ins) : List Access :=
  if ins.isStack then [] else if ins.isStandardMemop then ins.accesses.map (·.1) else []

/-- A Pin trace: one entry, any number of exits. `theader` is the
address of the header made for it. -/
structure PinTrace where
  id : Nat
  theader : UInt64
  instructions : List Ins
  deriving DecidableEq, Repr

/-- The commands of the trace's header, all `TCMD_IMMEDIATE`. -/
def PinTrace.refs (t : PinTrace) : List Access := t.instructions.flatMap Ins.instrument

/-- `LogBytes`, in words. -/
def PinTrace.logWords (t : PinTrace) : Nat := 1 + t.refs.length

-- =========================================================== the buffer

/-- A word of the buffer. -/
inductive Slot
  | empty
  | header (t : PinTrace)
  | immediate (value : UInt64)
  deriving DecidableEq, Repr

/-- An address as it is stored: 0 is `EMPTY_SLOT`. -/
def Slot.ofValue (value : UInt64) : Slot := if value = 0 then .empty else .immediate value

/-- What a word is when it is read as an address; `none` for an empty
one. -/
def Slot.immediate? : Slot → Option UInt64
  | .empty => none
  | .header t => some t.theader
  | .immediate value => some value

/-- `BUFFER_SIZE`, in words. -/
def bufferWords : Nat := 125000

/-- `ExpandTrace`: the list entries, and the buffer with their words
empty. -/
def expandTrace : List Access → (Nat → Slot) → Nat → List PinAddress × (Nat → Slot)
  | [], data, _ => ([], data)
  | ref :: refs, data, logCursor =>
      match (data logCursor).immediate? with
      | none => expandTrace refs data (logCursor + 1)
      | some value =>
          let (pushed, data) :=
            expandTrace refs (Function.update data logCursor .empty) (logCursor + 1)
          (.touched value (!ref.isRead) :: pushed, data)

/-- The loop of `Expand`, from one position of the buffer on. A word
that is not a header where one should be is never met. -/
def expandFrom : Nat → (Nat → Slot) → Nat → List PinAddress × (Nat → Slot)
  | 0, data, _ => ([], data)
  | fuel + 1, data, logCursor =>
      match data logCursor with
      | .header t =>
          let (pushed, data) := expandTrace t.refs data (logCursor + 1)
          let (more, data) := expandFrom fuel data (logCursor + t.logWords)
          (pushed ++ more, data)
      | _ => ([], data)

-- ============================================================= the tool

/-- The tool's state for a thread. A toggle is true when it is off. -/
structure Tool where
  toggleMemtrace : Bool
  toggleMalloc : Bool
  toggleFree : Bool
  /-- The code Pin runs for the trace has the calls. -/
  compiled : Nat → Bool
  data : Nat → Slot
  logCursor : Nat
  /-- `mapThrIDToAddresses[tid]`. -/
  addresses : List PinAddress

/-- One instruction as it executes: the stack pointer, and the addresses
it accesses. -/
structure InsRun where
  rsp : UInt64
  ea : Access → UInt64

/-- The test of `RecordImmediate`: between the stack pointer and where
the thread's stack began. -/
def onStack (stackPtr : UInt64) (d : InsRun) (access : Access) : Bool :=
  decide (d.ea access > d.rsp) && decide (d.ea access < stackPtr)

/-- The word `RecordImmediate` writes. -/
def recordImmediate (stackPtr : UInt64) (d : InsRun) (access : Access) : Slot :=
  if onStack stackPtr d access then .empty else .ofValue (d.ea access)

/-- The words the executed instructions of a trace write. -/
def recorded (stackPtr : UInt64) (t : PinTrace) (run : List InsRun) : List Slot :=
  (t.instructions.zip run).flatMap fun p => p.1.instrument.map (recordImmediate stackPtr p.2)

/-- Words written one after the other. -/
def writeSlots : (Nat → Slot) → Nat → List Slot → (Nat → Slot)
  | data, _, [] => data
  | data, pos, slot :: slots => writeSlots (Function.update data pos slot) (pos + 1) slots

namespace Tool

/-- `ThreadStart`. -/
def init : Tool where
  toggleMemtrace := true
  toggleMalloc := true
  toggleFree := true
  compiled := fun _ => false
  data := fun _ => .empty
  logCursor := 0
  addresses := []

variable (tool : Tool)

/-- What `Expand` would put on the list now. -/
def buffered : List PinAddress := (expandFrom bufferWords tool.data 0).1

/-- `Expand` and `ResetLogCursor`. -/
def expand : Tool :=
  { tool with
    data := (expandFrom bufferWords tool.data 0).2
    logCursor := 0
    addresses := tool.addresses ++ tool.buffered }

/-- `TraceAllocIf` and `TraceAllocThen`: room for the trace. -/
def traceAlloc (t : PinTrace) : Tool :=
  if tool.logCursor + t.logWords ≥ bufferWords then tool.expand else tool

/-- The calls before the trace and for each reference reached. -/
def execTrace (stackPtr : UInt64) (t : PinTrace) (run : List InsRun) : Tool :=
  let tool := tool.traceAlloc t
  { tool with
    data := writeSlots (Function.update tool.data tool.logCursor (.header t)) (tool.logCursor + 1)
      (recorded stackPtr t run)
    logCursor := tool.logCursor + t.logWords }

/-- `recordMallocAddress` writes into the last entry of the list,
whatever it is. -/
def setAddress (address : Addr) : PinAddress → PinAddress
  | .touched _ isWritten => .touched address isWritten
  | .malloc _ size => .malloc address size
  | .free _ => .free address

end Tool

-- ============================================================ the events

/-- What the program does: Pin compiles a trace, executes one or the
first instructions of one, and runs the tool's routines. -/
inductive Event
  | instrumentTrace (t : PinTrace)
  | execTrace (t : PinTrace) (run : List InsRun)
  | mallocEntry (size : UInt64)
  | mallocReturn (address : Addr)
  | free (address : Addr)
  | startLogPinAll
  | stopLogPinAll
  | retrieve

/-- The tool's part in an event. -/
def Tool.step (stackPtr : UInt64) (tool : Tool) : Event → Tool
  | .instrumentTrace t =>
      { tool with compiled := Function.update tool.compiled t.id (!tool.toggleMemtrace) }
  | .execTrace t run =>
      if tool.compiled t.id && !t.refs.isEmpty then tool.execTrace stackPtr t run else tool
  | .mallocEntry size =>
      -- recordMallocSize
      if tool.toggleMalloc then tool
      else { tool with addresses := tool.addresses ++ [.malloc 0 size] }
  | .mallocReturn address =>
      -- recordMallocAddress
      if tool.toggleMalloc then tool
      else
        { tool with
          addresses := tool.addresses.modify (tool.addresses.length - 1) (setAddress address) }
  | .free address =>
      -- recordFreeAddress
      if tool.toggleFree then tool
      else { tool with addresses := tool.addresses ++ [.free address] }
  | .startLogPinAll =>
      -- toggleon
      { tool with toggleMemtrace := false, toggleMalloc := false, toggleFree := false }
  | .stopLogPinAll =>
      -- toggleoff
      { tool.expand with toggleMemtrace := true, toggleMalloc := true, toggleFree := true }
  | .retrieve => { tool with addresses := [] }

end Carmot.MemTrace
