/-
The visitor of the pass (CatPass.cpp, `MyInstVisitor`, `getGlobals`,
`filterLibraryCalls` and `runOnModule` up to where it modifies the
bitcode): which instructions get an entry, and what the entry says.

An `Entry` is in two halves: what its instrumentation reads, and what
its debug data is made of. The entries a run makes are distinct objects,
so one is pointed to by its place in the vectors `runOnModule` lists.

# Parameters

`isTheLibraryFunctionPure` is NOELLE's. Loads and stores are taken from
`instToEntryMap`, a hash map that has every load and store with an
entry: `order` is its order.

# Left out

The vectors that nothing reads (`callsToStartTracking`) and those of
cycle finding (`escapes`), and the sets of loads and stores other
instrumentations take, which are empty in the build without them
(compile_disable_onlyread_directstate.sh).
-/
import Carmot.Pass.DebugData
import Carmot.Pass.Insertion
import Carmot.Pass.Types

namespace Carmot.Pass

-- ====================================================== what is visited

/-- A `DILocation`. -/
structure DILocation where
  directory : List UInt8
  fileName : List UInt8
  line : UInt32
  column : UInt32

/-- A `DILocalVariable` or `DIGlobalVariable`. -/
structure DIVariable where
  directory : List UInt8
  fileName : List UInt8
  name : List UInt8
  line : UInt32

/-- The path of a file: `directory + "/" + fileName`. -/
def pathToFile (directory fileName : List UInt8) : List UInt8 := directory ++ 47 :: fileName

/-- What metadata says of an `AllocaInst`: does any use it, is there a
`LocalAsMetadata`, and who uses the `MetadataAsValue` if there is one,
with the variable of a `DbgVariableIntrinsic`. -/
structure AllocaMetadata where
  isUsedByMetadata : Bool
  localAsMetadata : Bool
  metadataAsValue : Option (List (Option DIVariable))

/-- What the visitor asks of an instruction. -/
inductive InstClass (Func Value : Type)
  | call (getCalledFunction : Option Func) (getOperand : Nat → Value)
  | load (getPointerOperand : Value)
  | store (getPointerOperand : Value) (valueType : StoredType)
  | alloca (getAllocatedType : VarType) (metadata : AllocaMetadata)
  | ret
  | other

/-- A global variable; all of them have pointer type. -/
structure GlobalVariable (Value : Type) where
  getName : String
  getValueType : VarType
  value : Value
  /-- The variables of `getDebugInfo`. -/
  debugInfo : List (Option DIVariable)

/-- A module, besides its code. -/
structure ModuleInfo (Func Inst Value : Type) where
  getName : Func → String
  isIntrinsic : Func → Bool
  instClass : Inst → InstClass Func Value
  getDebugLoc : Inst → Option DILocation
  /-- An instruction as a value. -/
  value : Inst → Value
  globals : List (GlobalVariable Value)

-- ============================================================== the names

/-- `AllocFunctions`. -/
inductive AllocFunctions
  | _malloc
  | _calloc
  | _realloc
  | _jemalloc
  | _mmap
  | _mremap
  | _new
  | _munmap
  | _delete
  | _free
  | _unknown
  deriving DecidableEq, Repr

/-- `functionCalls`. -/
def functionCalls : List (String × AllocFunctions) :=
  [("malloc", ._malloc), ("calloc", ._calloc), ("realloc", ._realloc), ("jemalloc", ._jemalloc),
    ("mmap", ._mmap), ("mremap", ._mremap), ("_Znwm", ._new), ("munmap", ._munmap),
    ("_ZdlPv", ._delete), ("free", ._free)]

/-- The function call through its name. -/
def allocFunction (funcName : String) : AllocFunctions :=
  (functionCalls.lookup funcName).getD ._unknown

/-- `knowns`. -/
def knowns : List String :=
  ["caratGetStateWrapper", "caratReportStateWrapper", "_Z8prologueiiiiiiii",
    "_Z16PrintJSONWrapperv", "endStateInvocationWrapper"]

/-- `funcNamesToSkip`. -/
def funcNamesToSkip : List String :=
  ["fprintf", "fwrite", "printf", "fflush", "exit", "strcmp", "atoi", "fopen", "fgetc_unlocked",
    "fclose", "fread", "puts", "stat", "__iso99_sscanf", "atof", "sprintf", "__iso99_fscanf",
    "fgets", "perror", "getc", "strlen", "strncmp", "fputc", "ftell", "fseek", "feof", "strtol",
    "putchar", "__errno_location", "omp_get_max_threads", "omp_set_max_threads", "strerror",
    "vprintf", "snprintf", "vsnprintf"]

-- ============================================================ the visitor

/-- An entry: what its instrumentation reads, and what its debug data is
made of. -/
structure Collected (E : Type) where
  entry : E
  debug : Entry

/-- The vectors of `MyInstVisitor`. -/
structure MyInstVisitor (Func Inst Value : Type) where
  returns : List Inst
  invokes : List Inst
  loads : List (Collected (AccessEntry Inst Value))
  stores : List (Collected (AccessEntry Inst Value))
  deallocs : List (Inst × Value)
  allocations : List (Collected (AllocEntry Inst Value))
  callocs : List (Collected (CallocEntry Inst Value))
  reallocs : List (Collected (ReallocEntry Inst Value))
  unknowns : List (Collected (UnknownEntry Inst))
  functionAllocaMap : Func → List Value

/-- Before the visit. -/
def MyInstVisitor.init {Func Inst Value : Type} : MyInstVisitor Func Inst Value :=
  ⟨[], [], [], [], [], [], [], [], [], fun _ => []⟩

variable {Func Block Inst Value : Type}

/-- The debug data of a call. -/
def DILocation.debug (debugInfo : DILocation) : Entry :=
  ⟨pathToFile debugInfo.directory debugInfo.fileName, [], debugInfo.line, debugInfo.column, 0⟩

/-- `"UnknownPathToFile"`. -/
def unknownPathToFile : List UInt8 :=
  [85, 110, 107, 110, 111, 119, 110, 80, 97, 116, 104, 84, 111, 70, 105, 108, 101]

/-- The debug data of a load or store, which has an entry without any
too. -/
def accessDebug (debugInfo : Option DILocation) : Entry :=
  (debugInfo.map DILocation.debug).getD ⟨unknownPathToFile, [], 0, 0, 0⟩

/-- `"UnavailableVariableName"`. -/
def unavailableVariableName : List UInt8 :=
  [85, 110, 97, 118, 97, 105, 108, 97, 98, 108, 101, 86, 97, 114, 105, 97, 98, 108, 101, 78, 97,
    109, 101]

/-- The debug data of a variable. -/
def DIVariable.debug (v : DIVariable) : Entry :=
  ⟨pathToFile v.directory v.fileName, v.name, v.line, 0, 0⟩

/-- What the visitor finds for a stack variable. -/
inductive AllocaDebug
  | abort
  | skip
  | entry (debug : Entry)

/-- The debug data of a stack variable: of its only `llvm.dbg.declare`,
if it has no location itself. -/
def allocaDebug (debugInfo : Option DILocation) (metadata : AllocaMetadata) : AllocaDebug :=
  match debugInfo with
  | some debugInfo => .entry { debugInfo.debug with varName := unavailableVariableName }
  | none =>
      if !metadata.isUsedByMetadata then .skip
      else if !metadata.localAsMetadata then .skip
      else
        match metadata.metadataAsValue with
        | none => .skip
        | some [some localVariable] => .entry localVariable.debug
        | some [none] => .abort
        | some _ => .skip

section Visit

variable [DecidableEq Func] [DecidableEq Inst] (P : Code Func Block Inst)
  (info : ModuleInfo Func Inst Value)

/-- The switch of `visitCallInvokeInst`. -/
def collectCall (IV : MyInstVisitor Func Inst Value) (inst : Inst) (getOperand : Nat → Value)
    (funcName : String) (debug : Entry) : MyInstVisitor Func Inst Value :=
  match allocFunction funcName with
  | ._malloc | ._new =>
      { IV with allocations := IV.allocations
          ++ [⟨⟨some inst, info.value inst, .allocSize (getOperand 0), 0⟩, debug⟩] }
  | ._mmap =>
      { IV with allocations := IV.allocations
          ++ [⟨⟨some inst, info.value inst, .allocSize (getOperand 1), 0⟩, debug⟩] }
  | ._calloc =>
      { IV with callocs := IV.callocs
          ++ [⟨⟨inst, info.value inst, getOperand 1, getOperand 0, 0⟩, debug⟩] }
  | ._realloc =>
      { IV with reallocs := IV.reallocs
          ++ [⟨⟨inst, getOperand 0, info.value inst, getOperand 1, 0⟩, debug⟩] }
  | ._mremap =>
      { IV with reallocs := IV.reallocs
          ++ [⟨⟨inst, getOperand 0, info.value inst, getOperand 2, 0⟩, debug⟩] }
  | ._munmap | ._free | ._delete => { IV with deallocs := IV.deallocs ++ [(inst, getOperand 0)] }
  | ._jemalloc | ._unknown =>
      if funcName ∈ knowns then IV
      else { IV with unknowns := IV.unknowns ++ [⟨⟨inst, 0⟩, debug⟩] }

/-- `visitCallInvokeInst`. -/
def visitCallInvokeInst (IV : MyInstVisitor Func Inst Value) (inst : Inst)
    (getCalledFunction : Option Func) (getOperand : Nat → Value) : MyInstVisitor Func Inst Value :=
  match getCalledFunction with
  | none => IV
  | some fp =>
      if fp ∈ P.functions then IV
      else if info.isIntrinsic fp then IV
      else
        match info.getDebugLoc inst with
        | none => IV
        | some debugInfo =>
            let IV := collectCall info IV inst getOperand (info.getName fp) debugInfo.debug
            match P.flowKind inst with
            | .invoke _ _ => { IV with invokes := IV.invokes ++ [inst] }
            | _ => IV

/-- What the earlier analyses have found. -/
structure VisitorSets (Func Inst : Type) where
  functionsToInstrumentLoadStore : List Func
  functionsToInstrumentAllocaInst : List Func
  touchesToSkip : List Inst

variable (sets : VisitorSets Func Inst)

/-- Does `visitLoadInst` or `visitStoreInst` go on? -/
def VisitorSets.visits (inst : Inst) : Bool :=
  decide (P.getFunction (P.getParent inst) ∈ sets.functionsToInstrumentLoadStore)
    && !decide (inst ∈ sets.touchesToSkip)

/-- `visitLoadInst`. -/
def visitLoadInst (IV : MyInstVisitor Func Inst Value) (inst : Inst) (getPointerOperand : Value) :
    MyInstVisitor Func Inst Value :=
  if sets.visits P inst then
    { IV with loads := IV.loads
        ++ [⟨⟨inst, getPointerOperand, .load, 0⟩, accessDebug (info.getDebugLoc inst)⟩] }
  else IV

/-- `visitStoreInst`. -/
def visitStoreInst (IV : MyInstVisitor Func Inst Value) (inst : Inst) (getPointerOperand : Value)
    (valueType : StoredType) : MyInstVisitor Func Inst Value :=
  if sets.visits P inst then
    { IV with stores := IV.stores
        ++ [⟨⟨inst, getPointerOperand,
          .store valueType.primitiveSizeInBytes valueType.typeSizeInBytes, 0⟩,
            accessDebug (info.getDebugLoc inst)⟩] }
  else IV

/-- `visitAllocaInst`; `none` is its abort. -/
def visitAllocaInst (IV : MyInstVisitor Func Inst Value) (inst : Inst)
    (getAllocatedType : VarType) (metadata : AllocaMetadata) :
    Option (MyInstVisitor Func Inst Value) :=
  let parentFunc := P.getFunction (P.getParent inst)
  if parentFunc ∈ sets.functionsToInstrumentAllocaInst then
    match allocaDebug (info.getDebugLoc inst) metadata with
    | .abort => none
    | .skip => some IV
    | .entry debug =>
        some { IV with
          allocations := IV.allocations ++ [⟨⟨some inst, info.value inst,
            .static (visitAllocaInstSize getAllocatedType), 0⟩, debug⟩]
          functionAllocaMap := Function.update IV.functionAllocaMap parentFunc
            (IV.functionAllocaMap parentFunc ++ [info.value inst]) }
  else some IV

/-- The visit of an instruction. -/
def visitInst (IV : MyInstVisitor Func Inst Value) (inst : Inst) :
    Option (MyInstVisitor Func Inst Value) :=
  match info.instClass inst with
  | .call getCalledFunction getOperand =>
      some (visitCallInvokeInst P info IV inst getCalledFunction getOperand)
  | .load getPointerOperand => some (visitLoadInst P info sets IV inst getPointerOperand)
  | .store getPointerOperand valueType =>
      some (visitStoreInst P info sets IV inst getPointerOperand valueType)
  | .alloca getAllocatedType metadata => visitAllocaInst P info sets IV inst getAllocatedType metadata
  | .ret => some { IV with returns := IV.returns ++ [inst] }
  | .other => some IV

/-- The instructions of a module, in the order of the visit. -/
def Code.allInsts : List Inst := P.functions.flatMap fun f => (P.blocks f).flatMap P.insts

/-- `IV.visit(M)`. -/
def visitModule : Option (MyInstVisitor Func Inst Value) :=
  P.allInsts.foldlM (visitInst P info sets) MyInstVisitor.init

end Visit

-- ========================================================== after the visit

/-- `getGlobals`, for one global. -/
def GlobalVariable.entry {Inst Value : Type} (global : GlobalVariable Value) :
    Option (Collected (AllocEntry Inst Value)) :=
  if global.getName = "llvm.global_ctors" then none
  else
    match global.debugInfo with
    | some debugInfo :: _ =>
        some ⟨⟨none, global.value, .static (getGlobalsSize global.getValueType), 0⟩,
          debugInfo.debug⟩
    | none :: _ | [] => none

/-- `getGlobals`. -/
def getGlobals (globals : List (GlobalVariable Value))
    (allocations : List (Collected (AllocEntry Inst Value))) :
    List (Collected (AllocEntry Inst Value)) :=
  allocations ++ globals.filterMap GlobalVariable.entry

/-- `filterLibraryCalls`; `none` is its abort. -/
def filterLibraryCalls (info : ModuleInfo Func Inst Value)
    (isTheLibraryFunctionPure : Func → Bool) :
    List (Collected (UnknownEntry Inst)) → Option (List (Collected (UnknownEntry Inst)))
  | [] => some []
  | elem :: unknowns =>
      match info.instClass elem.entry.inst with
      | .call (some func) _ =>
          (filterLibraryCalls info isTheLibraryFunctionPure unknowns).map fun filteredUnknowns =>
            if isTheLibraryFunctionPure func || decide (info.getName func ∈ funcNamesToSkip) then
              filteredUnknowns
            else elem :: filteredUnknowns
      | _ => none

namespace MyInstVisitor

variable (IV : MyInstVisitor Func Inst Value)

/-- The debug halves of `allEntries`. -/
def allEntries : List (List Entry) :=
  [IV.allocations.map Collected.debug, IV.callocs.map Collected.debug,
    IV.reallocs.map Collected.debug, IV.unknowns.map Collected.debug,
    IV.stores.map Collected.debug, IV.loads.map Collected.debug]

end MyInstVisitor

/-- The pointers to the entries of vectors: their places, from `base`
on. -/
def entryPtrs {E : Type} : Nat → List (List E) → List (List EntryPtr)
  | _, [] => []
  | base, entries :: allEntries =>
      List.range' base entries.length :: entryPtrs (base + entries.length) allEntries

/-- What entries point to before they have ids. -/
def entryHeap (allEntries : List (List Entry)) : EntryPtr → Entry :=
  fun p => allEntries.flatten.getD p ⟨[], [], 0, 0, 0⟩

/-- The entries of a vector that starts at `base`, with their ids. -/
def withIds {E : Type} (setId : E → UInt64 → E) (heap : EntryPtr → Entry) (base : Nat)
    (entries : List (Collected E)) : List E :=
  entries.mapIdx fun k e => setId e.entry (heap (base + k)).id

namespace MyInstVisitor

/-- What is left to the instrumentations, once the entries have their
ids: no loads and stores if uses are not tracked. -/
def visited (IV : MyInstVisitor Func Inst Value) (heap : EntryPtr → Entry)
    (order : List (AccessEntry Inst Value) → List (AccessEntry Inst Value))
    (disableStateUsesInstrumentation : Bool) (uniqueCallstackFunctions : List Func) :
    Visited Func Inst Value :=
  let callocs := IV.allocations.length
  let reallocs := callocs + IV.callocs.length
  let unknowns := reallocs + IV.reallocs.length
  let stores := unknowns + IV.unknowns.length
  let loads := stores + IV.stores.length
  { uniqueCallstackFunctions := uniqueCallstackFunctions
    allocations := withIds (fun e id => { e with id := id }) heap 0 IV.allocations
    callocs := withIds (fun e id => { e with id := id }) heap callocs IV.callocs
    reallocs := withIds (fun e id => { e with id := id }) heap reallocs IV.reallocs
    unknowns := withIds (fun e id => { e with id := id }) heap unknowns IV.unknowns
    accesses :=
      if disableStateUsesInstrumentation then []
      else
        order (withIds (fun e id => { e with id := id }) heap stores IV.stores
          ++ withIds (fun e id => { e with id := id }) heap loads IV.loads)
    deallocs := IV.deallocs
    invokes := IV.invokes
    functionAllocaMap := IV.functionAllocaMap }

end MyInstVisitor

/-- What the first half of `runOnModule` goes by. -/
structure VisitorOptions (Func Inst Value : Type) where
  sets : VisitorSets Func Inst
  isTheLibraryFunctionPure : Func → Bool
  order : List (AccessEntry Inst Value) → List (AccessEntry Inst Value)
  disableStateUsesInstrumentation : Bool
  uniqueCallstackFunctions : List Func

section Collect

variable [DecidableEq Func] [DecidableEq Inst] (P : Code Func Block Inst)
  (info : ModuleInfo Func Inst Value) (v : VisitorOptions Func Inst Value)

/-- The visitor's vectors when the entries are numbered. -/
def collect : Option (MyInstVisitor Func Inst Value) :=
  match visitModule P info v.sets with
  | none => none
  | some IV =>
      match filterLibraryCalls info v.isTheLibraryFunctionPure IV.unknowns with
      | none => none
      | some unknowns =>
          some { IV with
            unknowns := unknowns
            allocations := getGlobals info.globals IV.allocations }

/-- What the second half of `runOnModule` gets, and the file of debug
data. -/
def collectAndWrite : Option (Visited Func Inst Value × List UInt8) :=
  match collect P info v with
  | none => none
  | some IV =>
      match createDebugData (entryHeap IV.allEntries) (entryPtrs 0 IV.allEntries) [] with
      | none => none
      | some (heap, debugData) =>
          match writeDebugData debugData with
          | none => none
          | some file =>
              some (IV.visited heap v.order v.disableStateUsesInstrumentation
                v.uniqueCallstackFunctions, file)

end Collect

end Carmot.Pass
